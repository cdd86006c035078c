import CodeAudit.Proofs.Number.Monotone
import CodeAudit.Proofs.Score.Defined
import Mathlib.Tactic.Ring

/-!
Between which integers a mean lies. Quotients and sums are rounded, but the integers and halves in question are doubles
themselves, and rounding keeps the order, so that the mean of natural numbers is not less than the least and not more
than the greatest of them.
-/
set_option autoImplicit false

namespace CodeAudit

namespace Binary64

theorem roundUnits_between {lo hi num den k : Nat} (hd : 0 < den) (hlo : lo < 2 ^ 53) (hhi : hi < 2 ^ 53)
    (hl : lo * 2 ^ k * den ≤ num) (hh : num ≤ hi * 2 ^ k * den) :
    lo * 2 ^ k ≤ roundUnits num den ∧ roundUnits num den ≤ hi * 2 ^ k := by
  have hleast := roundUnits_mono den hl
  have hgreatest := roundUnits_mono den hh
  rw [roundUnits_mul (spacing_dvd hlo k) hd] at hleast
  rw [roundUnits_mul (spacing_dvd hhi k) hd] at hgreatest
  exact ⟨hleast, hgreatest⟩

theorem ofUnits_between (lo hi num k : Nat) {den : Nat} (hd : 0 < den) (hlo : lo < 2 ^ 53) (hhi : hi < 2 ^ 53)
    (hk : k ≤ 2045) (hl : lo * 2 ^ k * den ≤ num) (hh : num ≤ hi * 2 ^ k * den) :
    ∃ u, ofUnits false num den = .finite false u ∧ lo * 2 ^ k ≤ u ∧ u ≤ hi * 2 ^ k := by
  obtain ⟨hleast, hgreatest⟩ := roundUnits_between hd hlo hhi hl hh
  have hrange : hi * 2 ^ k < limit := by
    refine (Nat.mul_lt_mul_of_pos_right hhi (Nat.two_pow_pos k)).trans_le ?_
    rw [← Nat.pow_add]
    exact two_pow_le_limit (by omega)
  exact ⟨_, by rw [ofUnits, if_pos (hgreatest.trans_lt hrange)], hleast, hgreatest⟩

theorem exists_half : ∃ k ≤ 2044, one = 2 ^ (k + 1) ∧ half = .finite false (2 ^ k) :=
  ⟨1073, by decide, by decide +kernel, by decide +kernel⟩

end Binary64

namespace Score
open Binary64

theorem roundHalfUp_between {lo hi u : Nat} (hhi : hi < 2 ^ 51) (hl : lo * one ≤ u) (hh : u ≤ hi * one) :
    ∃ i : Nat, roundHalfUp (.finite false u) = .ok i ∧ lo ≤ i ∧ i ≤ hi := by
  have hlohi : lo ≤ hi := Nat.le_of_mul_le_mul_right (hl.trans hh) Binary64.one_pos
  obtain ⟨k, hk, hone, hhalf⟩ := exists_half
  have hodd (n : Nat) : (2 * n + 1) * 2 ^ k * 1 = n * one + 2 ^ k := by
    rw [hone, Nat.pow_succ]
    ring
  obtain ⟨v, hv, hleast, hgreatest⟩ := ofUnits_between (2 * lo + 1) (2 * hi + 1) (u + 2 ^ k) k Nat.one_pos
    (by omega) (by omega) (by omega) (by rw [hodd]; omega) (by rw [hodd]; omega)
  rw [← Nat.mul_one (_ * _), hodd] at hleast hgreatest
  rw [← add_finite, ← hhalf] at hv
  refine ⟨v / one, by rw [roundHalfUp, hv, floor?_finite], ?_, ?_⟩
  · rw [Nat.le_div_iff_mul_le Binary64.one_pos]
    omega
  · rw [← Nat.lt_succ_iff, Nat.div_lt_iff_lt_mul Binary64.one_pos, Nat.succ_mul]
    have hsmall : 2 ^ k < one := by
      rw [hone]
      exact Nat.pow_lt_pow_succ (by decide)
    omega

theorem sum_wholeOf (ns : List Nat) : ((ns.map Json.ofNat).map wholeOf).sum = (ns.sum : Nat) := by
  induction ns with
  | nil => rfl
  | cons n ns ih =>
    rw [List.map_cons, List.map_cons, List.sum_cons, ih, List.sum_cons, Int.natCast_add]
    rfl

/-- The average of natural numbers lies between any two integers between which all of them lie. -/
theorem average_between {ns : List Nat} {lo hi : Nat} (hne : ns ≠ []) (hhi : hi < 2 ^ 51)
    (h : ∀ n ∈ ns, lo ≤ n ∧ n ≤ hi) : ∃ i : Nat, average (ns.map .ofNat) = .ok i ∧ lo ≤ i ∧ i ≤ hi := by
  have hpos : 0 < ns.length := List.length_pos_iff.2 hne
  have hleast : ns.length * lo ≤ ns.sum := List.card_nsmul_le_sum ns lo fun n hn => (h n hn).1
  have hgreatest : ns.sum ≤ ns.length * hi := List.sum_le_card_nsmul ns hi fun n hn => (h n hn).2
  obtain ⟨k, hk, hone, -⟩ := exists_half
  have hscaled (n : Nat) : n * 2 ^ (k + 1) * ns.length = ns.length * n * one := by
    rw [hone]
    ring
  have hlohi : lo ≤ hi := Nat.le_of_mul_le_mul_left (hleast.trans hgreatest) hpos
  obtain ⟨u, hu, hl, hh⟩ := ofUnits_between lo hi (ns.sum * one) (k + 1) hpos (by omega)
    (by omega) (by omega) (by rw [hscaled]; exact Nat.mul_le_mul_right one hleast)
    (by rw [hscaled]; exact Nat.mul_le_mul_right one hgreatest)
  rw [← hone] at hl hh
  have hnaturals : Naturals (ns.map Json.ofNat) := fun v hv => by
    obtain ⟨n, -, rfl⟩ := List.mem_map.1 hv
    exact ⟨n, rfl⟩
  have hfold := foldlM_naturals hnaturals 0
  rw [sum_wholeOf, Int.zero_add] at hfold
  have hratio : ofRatio (decide ((ns.sum : Int) < 0)) (ns.sum : Int).natAbs ns.length = .finite false u := by
    rw [decide_eq_false (by omega), Int.natAbs_natCast, ofRatio, hu]
  obtain ⟨i, hi, hbounds⟩ := roundHalfUp_between hhi hl hh
  exact ⟨i, by rw [average_eq (by simpa using hne) hfold, List.length_map, dividedBy_whole hratio, Except.bind, hi],
    hbounds⟩

end Score

def Findings.flagged (rule name : String) (fs : List Finding) : List Nat :=
  (fs.filter (·.rule == some rule)).map fun f => (Score.wholeOf ((f.metadata.get? name).getD .null)).toNat

/-- Of the findings only those of the rule bear the measure, and all of these do, with a value of at least `least`. -/
structure Finding.Gauged (rule name : String) (least : Nat) (f : Finding) : Prop where
  own : f.rule = some rule → ∃ n : Nat, f.metadata.get? name = some (.ofNat n) ∧ least ≤ n
  other : f.rule ≠ some rule → f.metadata.get? name = none

structure Findings.AverageOf (rule name : String) (least : Nat) (fs : List Finding) (average : Int) : Prop where
  measured : ∀ f ∈ fs, f.rule = some rule → ∃ n : Nat, f.metadata.get? name = some (.ofNat n) ∧ least ≤ n
  zero : (∀ f ∈ fs, f.rule ≠ some rule) → average = 0
  between : (∃ f ∈ fs, f.rule = some rule) → (least : Int) ≤ average ∧
    ∃ lo ∈ flagged rule name fs, ∃ hi ∈ flagged rule name fs,
      (∀ n ∈ flagged rule name fs, lo ≤ n ∧ n ≤ hi) ∧ (lo : Int) ≤ average ∧ average ≤ hi

namespace Findings
variable {rule name : String} {least : Nat} {fs : List Finding}

theorem flagged_perm {gs : List Finding} (h : fs.Perm gs) : (flagged rule name fs).Perm (flagged rule name gs) :=
  (h.filter _).map _

theorem flagged_eq_nil : flagged rule name fs = [] ↔ ∀ f ∈ fs, f.rule ≠ some rule := by
  simp [flagged]

theorem flagged_ne_nil : flagged rule name fs ≠ [] ↔ ∃ f ∈ fs, f.rule = some rule := by
  simp [flagged]

theorem le_of_mem_flagged (h : ∀ f ∈ fs, f.Gauged rule name least) {n : Nat} (hn : n ∈ flagged rule name fs) :
    least ≤ n := by
  obtain ⟨f, hf, rfl⟩ := List.mem_map.1 hn
  obtain ⟨hf, hrule⟩ := List.mem_filter.1 hf
  obtain ⟨m, hm, hle⟩ := (h f hf).own (beq_iff_eq.1 hrule)
  rw [hm]
  exact hle

theorem measures_eq (hleast : 0 < least) (h : ∀ f ∈ fs, f.Gauged rule name least) :
    Score.measures name fs = (flagged rule name fs).map .ofNat := by
  induction fs with
  | nil => rfl
  | cons f fs ih =>
    have ih := ih fun g hg => h g (List.mem_cons_of_mem f hg)
    unfold Score.measures flagged at ih ⊢
    by_cases hrule : f.rule = some rule
    · obtain ⟨n, hn, hle⟩ := (h f List.mem_cons_self).own hrule
      have hgiven : Json.isGiven (.ofNat n) = true := by
        rw [Json.ofNat, Json.isGiven, bne_iff_ne]
        omega
      have hvalue : (Score.wholeOf (.ofNat n)).toNat = n := rfl
      simp only [List.filterMap_cons, List.filter_cons, hn, hgiven, hrule, beq_self_eq_true, if_true, List.map_cons,
        Option.getD_some, hvalue, ih]
    · simp only [List.filterMap_cons, List.filter_cons, (h f List.mem_cons_self).other hrule,
        beq_eq_false_iff_ne.2 hrule, Bool.false_eq_true, if_false, ih]

theorem averageOf_gauged (hleast : 0 < least) (h : ∀ f ∈ fs, f.Gauged rule name least)
    (hsum : (flagged rule name fs).sum < 2 ^ 50) {i : Int} (hi : Score.average (Score.measures name fs) = .ok i) :
    AverageOf rule name least fs i := by
  rw [measures_eq hleast h] at hi
  refine ⟨fun f hf => (h f hf).own, fun hnone => ?_, fun hsome => ?_⟩
  · rw [flagged_eq_nil.2 hnone] at hi
    exact (Except.ok.inj hi).symm
  · have hne : flagged rule name fs ≠ [] := flagged_ne_nil.2 hsome
    have hrange : ∀ n ∈ flagged rule name fs, (flagged rule name fs).min hne ≤ n ∧ n ≤ (flagged rule name fs).max hne :=
      fun n hn => ⟨List.min_le_of_mem hn, List.le_max_of_mem hn⟩
    have hmax : (flagged rule name fs).max hne ≤ (flagged rule name fs).sum := List.le_sum_of_mem (List.max_mem hne)
    obtain ⟨j, hj, hl, hh⟩ := Score.average_between hne (by omega) hrange
    obtain rfl : (j : Int) = i := Except.ok.inj (hj.symm.trans hi)
    have hmin := le_of_mem_flagged h (List.min_mem hne)
    exact ⟨by omega, _, List.min_mem hne, _, List.max_mem hne, hrange, by omega, by omega⟩

end Findings
end CodeAudit
