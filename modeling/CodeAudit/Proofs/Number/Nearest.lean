import CodeAudit.Proofs.Number.Order
import Mathlib.Tactic.Ring

/-!
Which double an integer becomes: the one nearest to it, and of two that are equally near the one whose last bit is zero.
An integer of 53 bits is a double itself, and a double that an integer becomes is an integer.
-/
set_option autoImplicit false

namespace CodeAudit.Binary64

/-- How far so many units are from others, in units. -/
def away (q : Nat) (neg : Bool) (v : Nat) : Nat := ((q : Int) - signed neg v).natAbs

/-- No double is nearer to so many units than `u`, and if another one is as near, the last bit of `u` is zero. -/
structure Nearest (q u : Nat) : Prop where
  valid : (finite false u).Valid
  least : ∀ neg v, (finite neg v).Valid → away q false u ≤ away q neg v
  even : ∀ neg v, (finite neg v).Valid → away q neg v = away q false u → signed neg v = u ∨ u / spacing u % 2 = 0

variable {q s v : Nat}

theorem away_false (q v : Nat) : away q false v = ((q : Int) - v).natAbs := rfl

theorem away_true (q v : Nat) : away q true v = q + v := by
  rw [away, signed, if_pos rfl]
  omega

theorem nearest_cases (q s : Nat) :
    nearest q s = q / s ∧ 2 * (q % s) ≤ s ∧ (2 * (q % s) = s → q / s % 2 = 0) ∨
    nearest q s = q / s + 1 ∧ s ≤ 2 * (q % s) ∧ (2 * (q % s) = s → (q / s + 1) % 2 = 0) := by
  unfold nearest
  dsimp only
  split_ifs <;> omega

theorem away_nearest_mul (hs : 0 < s) (j : Nat) :
    away q false (nearest q s * s) ≤ away q false (j * s) ∧
    (away q false (j * s) = away q false (nearest q s * s) → j * s = nearest q s * s ∨ nearest q s % 2 = 0) := by
  have hq := Nat.div_add_mod' q s
  have hr := Nat.mod_lt q hs
  have hj : j * s ≤ q / s * s ∨ q / s * s + s ≤ j * s := by
    obtain h | h : j ≤ q / s ∨ q / s + 1 ≤ j := by omega
    · exact .inl (Nat.mul_le_mul_right s h)
    · exact .inr (Nat.succ_mul _ _ ▸ Nat.mul_le_mul_right s h)
  rw [away_false, away_false]
  obtain ⟨hm, hle, heven⟩ | ⟨hm, hle, heven⟩ := nearest_cases q s
  · rw [hm]
    omega
  · rw [hm, Nat.succ_mul]
    omega

theorem spacing_dvd_two_pow (q : Nat) : spacing q ∣ 2 ^ Nat.log2 q := Nat.pow_dvd_pow 2 (Nat.sub_le _ _)

theorem spacing_dvd_of_le (hv : spacing v ∣ v) (h : 2 ^ Nat.log2 q ≤ v) : spacing q ∣ v := by
  have hne : v ≠ 0 := by
    have := Nat.two_pow_pos (Nat.log2 q)
    omega
  have hlog : Nat.log2 q ≤ Nat.log2 v := (Nat.le_log2 hne).2 h
  exact (Nat.pow_dvd_pow 2 (Nat.sub_le_sub_right hlog 52)).trans hv

theorem away_nearest (hq : q ≠ 0) (hv : spacing v ∣ v) :
    away q false (nearest q (spacing q) * spacing q) ≤ away q false v ∧
    (away q false v = away q false (nearest q (spacing q) * spacing q) →
      v = nearest q (spacing q) * spacing q ∨ nearest q (spacing q) % 2 = 0) := by
  by_cases h : 2 ^ Nat.log2 q ≤ v
  · obtain ⟨j, hj⟩ := spacing_dvd_of_le hv h
    rw [hj, Nat.mul_comm (spacing q) j]
    exact away_nearest_mul (spacing_pos q) j
  · -- The leading power of two is nearer than what lies below it.
    obtain ⟨j, hj⟩ := spacing_dvd_two_pow q
    have hpower := (away_nearest_mul (q := q) (spacing_pos q) j).1
    rw [Nat.mul_comm j, ← hj] at hpower
    have hle := Nat.log2_self_le hq
    simp only [away_false] at hpower ⊢
    omega

theorem roundUnits_one (q : Nat) : roundUnits q 1 = nearest q (spacing q) * spacing q := by
  rw [roundUnits, Nat.div_one, Nat.one_mul]

theorem nearest_bits {k : Nat} (hk : Nat.log2 q = 52 + k) :
    spacing q = 2 ^ k ∧ 2 ^ 52 ≤ nearest q (2 ^ k) ∧ nearest q (2 ^ k) ≤ 2 ^ 53 := by
  have hs : spacing q = 2 ^ k := by
    rw [spacing, hk, Nat.add_sub_cancel_left]
    rfl
  have hq : q ≠ 0 := by
    rintro rfl
    rw [Nat.log2_zero] at hk
    omega
  have hlow : 2 ^ 52 ≤ q / 2 ^ k := by
    rw [Nat.le_div_iff_mul_le (Nat.two_pow_pos k), ← Nat.pow_add, ← hk]
    exact Nat.log2_self_le hq
  have hhigh : q / 2 ^ k < 2 ^ 53 := by
    rw [Nat.div_lt_iff_lt_mul (Nat.two_pow_pos k), ← hs]
    exact lt_mul_spacing q
  exact ⟨hs, hlow.trans (div_le_nearest _ _), (nearest_le_succ _ _).trans hhigh⟩

theorem spacing_roundUnits {k : Nat} (hk : Nat.log2 q = 52 + k) : spacing (roundUnits q 1) ∣ roundUnits q 1 ∧
    (nearest q (spacing q) % 2 = 0 → roundUnits q 1 / spacing (roundUnits q 1) % 2 = 0) := by
  obtain ⟨hs, hge, hle⟩ := nearest_bits hk
  rw [roundUnits_one, hs]
  obtain hlt | heq := hle.lt_or_eq
  · refine ⟨spacing_dvd hlt k, fun heven => ?_⟩
    rw [spacing_of_mem (Nat.mul_le_mul_right _ hge) (Nat.mul_lt_mul_of_pos_right hlt (Nat.two_pow_pos k)),
      Nat.mul_div_cancel _ (Nat.two_pow_pos k)]
    exact heven
  · -- one power of two up, the spacing doubles
    have htwice : 2 ^ 53 * 2 ^ k = 2 ^ 52 * 2 ^ (k + 1) := by ring
    rw [heq, htwice]
    refine ⟨spacing_dvd (by decide) _, fun _ => ?_⟩
    rw [spacing_of_mem (Nat.le_refl _) (Nat.mul_lt_mul_of_pos_right (by decide) (Nat.two_pow_pos _)),
      Nat.mul_div_cancel _ (Nat.two_pow_pos _)]
    rfl

theorem Nearest.of_dvd (hq : spacing q ∣ q) (hl : q < limit) : Nearest q q := by
  have hzero : away q false q = 0 := by
    rw [away_false]
    omega
  refine ⟨⟨hq, hl⟩, fun neg v _ => hzero ▸ Nat.zero_le _, fun neg v _ h => .inl ?_⟩
  rw [hzero, away] at h
  omega

theorem nearest_roundUnits (hl : roundUnits q 1 < limit) : Nearest q (roundUnits q 1) := by
  by_cases hsmall : q < 2 ^ 53
  · have hdvd : spacing q ∣ q := spacing_of_lt hsmall ▸ Nat.one_dvd q
    have hself : roundUnits (q * 1) 1 = q := roundUnits_mul hdvd Nat.one_pos
    rw [Nat.mul_one] at hself
    rw [hself] at hl ⊢
    exact .of_dvd hdvd hl
  · have hq : q ≠ 0 := by omega
    obtain ⟨k, hk⟩ : ∃ k, Nat.log2 q = 52 + k := ⟨_, (Nat.add_sub_of_le ((Nat.le_log2 hq).2 (by omega))).symm⟩
    obtain ⟨hdvd, heven⟩ := spacing_roundUnits hk
    have hnone {v : Nat} (hv : spacing v ∣ v) := away_nearest hq hv
    rw [← roundUnits_one] at hnone
    -- below zero no double is nearer than zero itself
    have hzero := (hnone (Nat.dvd_zero (spacing 0))).1
    have hwhole : away q false 0 = q := by
      rw [away_false]
      omega
    refine ⟨⟨hdvd, hl⟩, fun neg v hv => ?_, fun neg v hv h => ?_⟩
    · cases neg with
      | false => exact (hnone hv.1).1
      | true =>
        rw [away_true]
        omega
    · cases neg with
      | false => exact ((hnone hv.1).2 h).imp (congrArg _) heven
      | true =>
        rw [away_true] at h
        obtain rfl : v = 0 := by omega
        obtain heq | hlast := (hnone (Nat.dvd_zero _)).2 (by omega)
        · exact .inl (congrArg Int.ofNat heq)
        · exact .inr (heven hlast)

theorem ofNat_finite {n : Nat} (h : n < beyond) :
    ofNat n = .finite false (roundUnits (n * one) 1) ∧ roundUnits (n * one) 1 < limit := by
  have hfinite : ¬ofNat n = .infinite false := fun hn => absurd (ofNat_infinite_iff.1 hn) (by omega)
  rw [ofNat_eq, ofUnits] at hfinite ⊢
  by_cases hl : roundUnits (n * one) 1 < limit
  · exact ⟨if_pos hl, hl⟩
  · exact absurd (if_neg hl) hfinite

theorem exists_one : ∃ k, k = 1074 ∧ one = 2 ^ k := ⟨1074, rfl, by decide +kernel⟩

theorem roundUnits_ofNat {n : Nat} (h : n ≤ 2 ^ 53) : roundUnits (n * one) 1 = n * one := by
  obtain ⟨k, -, hone⟩ := exists_one
  have hdvd : spacing (n * one) ∣ n * one := by
    rw [hone]
    obtain hlt | rfl := h.lt_or_eq
    · exact spacing_dvd hlt k
    · rw [← Nat.pow_add, ← Nat.one_mul (2 ^ (53 + k))]
      exact spacing_dvd (by decide) _
  have hself := roundUnits_mul hdvd Nat.one_pos
  rwa [Nat.mul_one] at hself

theorem one_dvd_roundUnits {n : Nat} (h : 2 ^ 53 ≤ n) : one ∣ roundUnits (n * one) 1 := by
  obtain ⟨k, -, hone⟩ := exists_one
  have hle : 2 ^ (53 + k) ≤ n * one := by
    rw [Nat.pow_add, hone]
    exact Nat.mul_le_mul_right _ h
  have hne : n * one ≠ 0 := Nat.ne_of_gt ((Nat.two_pow_pos _).trans_le hle)
  have hlog : 53 + k ≤ Nat.log2 (n * one) := (Nat.le_log2 hne).2 hle
  have hspacing : 2 ^ k ∣ spacing (n * one) := Nat.pow_dvd_pow 2 (by omega)
  rw [← hone] at hspacing
  rw [roundUnits_one]
  exact hspacing.trans (Nat.dvd_mul_left _ _)

theorem ofNat_nearest {n : Nat} (h : n < beyond) : ∃ m, ofNat n = .finite false (m * one) ∧
    Nearest (n * one) (m * one) ∧ (n ≤ 2 ^ 53 → m = n) ∧ (2 ^ 53 ≤ n → 2 ^ 53 ≤ m) := by
  obtain ⟨hfinite, hl⟩ := ofNat_finite h
  have hnearest := nearest_roundUnits hl
  by_cases hn : n ≤ 2 ^ 53
  · rw [roundUnits_ofNat hn] at hfinite hnearest
    exact ⟨n, hfinite, hnearest, fun _ => rfl, id⟩
  · have hlarge : 2 ^ 53 ≤ n := by omega
    have hmono := roundUnits_mono 1 (Nat.mul_le_mul_right one hlarge)
    rw [roundUnits_ofNat (Nat.le_refl _)] at hmono
    obtain ⟨m, hm⟩ := exists_eq_mul_left_of_dvd (one_dvd_roundUnits hlarge)
    rw [hm] at hfinite hnearest hmono
    exact ⟨m, hfinite, hnearest, fun hle => absurd hle hn, fun _ => Nat.le_of_mul_le_mul_right hmono one_pos⟩

/-- Halfway between two doubles. -/
example : ofNat (2 ^ 53 + 1) = .finite false (2 ^ 53 * one) ∧
    ofNat (2 ^ 53 + 3) = .finite false ((2 ^ 53 + 4) * one) := by decide +kernel

end CodeAudit.Binary64
