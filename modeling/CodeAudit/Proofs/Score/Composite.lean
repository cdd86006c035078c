import CodeAudit.Proofs.Number.Error
import CodeAudit.Proofs.Score.Inserted

/-!
The composite without its roundings. Two fifths and one fifth are no doubles, but between a weighted mean of integers
with a half added and the next integer there is at least a tenth, and all the roundings together are far smaller.
-/
set_option autoImplicit false

namespace CodeAudit

namespace Score
open Binary64
variable {k rules model architecture n parts : Nat}

/-- One is so many units that the doubles below 512 are no farther apart than one in `2 ^ 44` of it. -/
theorem exists_grain : ∃ k ≤ 2044, one = 2 ^ 44 * 2 ^ k := ⟨1030, by decide, by decide +kernel⟩

theorem range_of_grain (hone : one = 2 ^ 44 * 2 ^ k) : 2 ^ (53 + k) = 512 * one := by
  rw [hone, Nat.pow_add]
  omega

theorem weight_about (hone : one = 2 ^ 44 * 2 ^ k) (hparts : parts ≤ 4) :
    About 10 (parts * one) (10 * 2 ^ k) (.finite false (roundUnits (parts * one) 10)) := by
  obtain ⟨hhigh, hlow⟩ : _ ∧ parts * one ≤ _ := roundUnits_error (show 0 < 10 by decide)
  have hle := Nat.mul_le_mul_right one hparts
  have hspacing : spacing (parts * one / 10) ≤ 2 ^ k := by
    refine spacing_le_two_pow ?_
    have hpos := Binary64.one_pos
    rw [range_of_grain hone]
    omega
  exact ⟨_, rfl, by omega, by omega⟩

theorem share_about (hone : one = 2 ^ 44 * 2 ^ k) (hk : k ≤ 2044) (hparts : parts ≤ 4) (hn : n ≤ 100) :
    About 10 (n * (parts * one)) (1010 * 2 ^ k) ((ofNat n).mul (.finite false (roundUnits (parts * one) 10))) := by
  have hshare : n * (parts * one) ≤ 100 * (4 * one) := Nat.mul_le_mul hn (Nat.mul_le_mul_right one hparts)
  have herror : n * (10 * 2 ^ k) ≤ 100 * (10 * 2 ^ k) := Nat.mul_le_mul_right _ hn
  have hpos := Nat.two_pow_pos k
  refine ((weight_about hone hparts).ofNat_mul (by omega) ?_ hk).mono (by omega)
  rw [range_of_grain hone]
  omega

theorem composite_about (hone : one = 2 ^ 44 * 2 ^ k) (hk : k ≤ 2044) (hr : rules ≤ 100) (hm : model ≤ 100)
    (ha : architecture ≤ 100) :
    About 10 ((4 * rules + 4 * model + 2 * architecture + 5) * one) (3060 * 2 ^ k)
      ((composite (.ofNat rules) (.ofNat model) (.ofNat architecture)).add half) := by
  have hhalf : About 10 (5 * one) 0 half := by
    obtain ⟨u, hu, hone⟩ : ∃ u, half = .finite false u ∧ one = 2 * u := ⟨_, rfl, by decide +kernel⟩
    exact ⟨u, hu, by omega, by omega⟩
  have hshare {n : Nat} (hn : n ≤ 100) := share_about hone hk (show 4 ≤ 4 by decide) hn
  have hlast := share_about hone hk (show 2 ≤ 4 by decide) ha
  have hbound {n : Nat} (hn : n ≤ 100) (parts : Nat) : n * (parts * one) ≤ 100 * (parts * one) :=
    Nat.mul_le_mul_right _ hn
  have hr4 := hbound hr 4
  have hm4 := hbound hm 4
  have ha2 := hbound ha 2
  have hrange := range_of_grain hone
  have hpos := Nat.two_pow_pos k
  have htwo := (hshare hr).add (hshare hm) (k := k) (by omega) hk
  have hthree := htwo.add hlast (k := k) (by omega) hk
  have hfour := hthree.add hhalf (k := k) (by omega) hk
  have hexact : rules * (4 * one) + model * (4 * one) + architecture * (2 * one) + 5 * one =
      (4 * rules + 4 * model + 2 * architecture + 5) * one := by ring
  rw [hexact] at hfour
  rw [composite, twoFifths_eq, oneFifth_eq]
  exact hfour.mono (by omega)

/-- The composite of scores up to 100 is never rounded to the wrong side. -/
theorem overall_eq (hr : rules ≤ 100) (hm : model ≤ 100) (ha : architecture ≤ 100) :
    overall (.ofNat rules) (.ofNat model) (.ofNat architecture) =
      .ok ((4 * rules + 4 * model + 2 * architecture + 5) / 10) := by
  obtain ⟨k, hk, hone⟩ := exists_grain
  obtain ⟨u, hu, hhigh, hlow⟩ := composite_about hone hk hr hm ha
  generalize hq : (4 * rules + 4 * model + 2 * architecture + 5) / 10 = q
  -- the value in tenths is odd, so that it is at least one tenth away from every integer
  obtain ⟨j, hj, hodd, hlt⟩ : ∃ j, 4 * rules + 4 * model + 2 * architecture + 5 = 10 * q + j ∧ 1 ≤ j ∧ j ≤ 9 :=
    ⟨(4 * rules + 4 * model + 2 * architecture + 5) % 10, by omega, by omega, by omega⟩
  have hleast := Nat.mul_le_mul_right one hodd
  have hmost := Nat.mul_le_mul_right one hlt
  rw [hj, Nat.add_mul, Nat.mul_assoc] at hhigh hlow
  have hfloor : u / one = q := by
    rw [Nat.div_eq_iff Binary64.one_pos]
    have hsmall : 3060 * 2 ^ k < one := by
      have hpos := Nat.two_pow_pos k
      omega
    omega
  have hclamp : clamp (q : Int) = q := by
    rw [clamp]
    omega
  rw [overall, roundHalfUp, hu, floor?_finite, hfloor]
  exact congrArg Except.ok hclamp

theorem architectureScore_le (a : Option Assessment) : architectureScore a ≤ 100 := by
  unfold architectureScore
  split
  · unfold ofLabel
    split <;> decide
  · decide

end Score

def Findings.number (source : Source) (severity : Severity) (fs : List Finding) : Nat :=
  fs.countP fun f => f.source = source ∧ f.severity = severity

theorem Findings.countSeverity_filter (fs : List Finding) (source : Source) (severity : Severity) :
    countSeverity (fs.filter (·.source == source)) severity = number source severity fs := by
  rw [countSeverity, List.countP_filter, number]
  refine List.countP_congr fun f _ => ?_
  rw [Bool.and_eq_true, beq_iff_eq, beq_iff_eq, decide_eq_true_iff, and_comm]

namespace Report
open Findings (number)
variable {fs : List Finding} {a : Option Assessment} {r : Report}

structure Exact (fs : List Finding) (r : Report) : Prop where
  rules : (r.rules : Int) =
    max 0 (100 - 10 * number .rules .high fs - 5 * number .rules .medium fs - 2 * number .rules .low fs)
  model : (r.model : Int) =
    max 0 (100 - 12 * number .model .high fs - 6 * number .model .medium fs - 2 * number .model .low fs)
  overall : r.overall = (4 * r.rules + 4 * r.model + 2 * r.architecture + 5) / 10
  nearest : ∀ n : Int, n ≠ r.overall →
    |(r.overall : ℚ) - (2 * r.rules + 2 * r.model + r.architecture) / 5| <
      |(n : ℚ) - (2 * r.rules + 2 * r.model + r.architecture) / 5|

theorem nearest_fifth {q t : Nat} {n : Int} (hq : q = (2 * t + 5) / 10) (hn : n ≠ q) :
    |(q : ℚ) - t / 5| < |(n : ℚ) - t / 5| := by
  have hfifths (x : ℚ) : |x - t / 5| = |5 * x - t| / 5 := by
    rw [show x - t / 5 = (5 * x - t) / 5 by ring, abs_div, abs_of_pos (by norm_num : (0 : ℚ) < 5)]
  have hnear : |5 * (q : Int) - t| ≤ 2 := by
    rw [abs_le]
    omega
  have hfar : 2 < |5 * n - t| := by
    rw [lt_abs]
    omega
  have hcloser := hnear.trans_lt hfar
  rw [hfifths, hfifths]
  refine div_lt_div_of_pos_right ?_ (by norm_num)
  exact_mod_cast hcloser

theorem Scores.exact (h : Scores fs a r) : Exact fs r := by
  have hrules : r.rules ≤ 100 := h.rules ▸ Score.score_le _ _
  have hmodel : r.model ≤ 100 := h.model ▸ Score.score_le _ _
  have harchitecture : r.architecture ≤ 100 := h.architecture ▸ Score.architectureScore_le a
  have hoverall : r.overall = (4 * r.rules + 4 * r.model + 2 * r.architecture + 5) / 10 :=
    Except.ok.inj (h.overall.symm.trans (Score.overall_eq hrules hmodel harchitecture))
  refine ⟨?_, ?_, hoverall, fun n hn => ?_⟩
  · rw [h.rules]
    simp only [Score.ruleScore, Score.score, Score.penalty, Score.ruleWeights, Findings.countSeverity_filter]
    omega
  · rw [h.model]
    simp only [Score.modelScore, Score.score, Score.penalty, Score.modelWeights, Findings.countSeverity_filter]
    omega
  · have hfifth := nearest_fifth (t := 2 * r.rules + 2 * r.model + r.architecture) (by omega) hn
    exact_mod_cast hfifth

/-- Whatever the findings are and whatever is known of the architecture, the composite of a report is the integer nearest
to two fifths of each of the scores of the two sources and one fifth of that of the architecture: the roundings of the
weights and of the sums never show. There is a report as soon as both averages have a value, which measures that are not
vast have. -/
theorem of_exact (fs : List Finding) (a : Option Assessment) :
    ((∃ r, of fs a = .ok r) ↔ Findings.Averaged fs) ∧ ((∀ f ∈ fs, f.Measured) → Findings.Averaged fs) ∧
    ∀ r, of fs a = .ok r → Exact fs r :=
  ⟨exists_of_iff, Metrics.averaged_of_measured, fun _ hr => (of_ok hr).exact⟩

/-- Two fifths of 95 and of 88 and one fifth of 60 are 85.2. -/
theorem of_exact_two :
    let long : Finding := ⟨.maintainability, .medium, "t", "d", "a.ts", .single 1 (by decide), none, none, .rules, none, []⟩
    let leak : Finding := ⟨.security, .high, "t", "d", "b.ts", .single 1 (by decide), none, none, .model, none, []⟩
    ∃ r, of [long, leak] (some (.label "needs-improvement")) = .ok r ∧ r.rules = 95 ∧ r.model = 88 ∧ r.overall = 85 := by
  intro long leak
  obtain ⟨hmade, haveraged, hexact⟩ := of_exact [long, leak] (some (.label "needs-improvement"))
  obtain ⟨r, hr⟩ := hmade.2 (haveraged (by simp [long, leak, Finding.Measured, Fields.get?]))
  obtain ⟨hrules, hmodel, hoverall, -⟩ := hexact r hr
  have harchitecture : r.architecture = 60 := (of_ok hr).architecture.trans (by decide +kernel)
  simp [number, long, leak] at hrules hmodel
  refine ⟨r, hr, by omega, by omega, ?_⟩
  omega

end Report
end CodeAudit
