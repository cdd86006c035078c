import CodeAudit.Proofs.Number.Rounding
import Mathlib.Tactic.Ring

/-!
Shortest decimals read back. Seventeen digits are always enough, because the interval around a double is
wider than a step of the grid of so many digits.
-/
set_option autoImplicit false

namespace CodeAudit.Binary64

theorem fourUnits_spec (digits : Nat) (power : Int) : 0 < (fourUnits digits power).2 ∧
    ((fourUnits digits power).1 : ℚ) = 4 * units digits power * (fourUnits digits power).2 := by
  unfold fourUnits
  split
  · rename_i hz
    refine ⟨Nat.one_pos, ?_⟩
    rw [units, ten_zpow_of_nonneg hz]
    push_cast
    ring
  · rename_i hz
    have ht : ((Nat.pow 10 (-power).toNat : Nat) : ℚ) ≠ 0 := by exact_mod_cast (ten_pow_pos _).ne'
    refine ⟨ten_pow_pos _, ?_⟩
    rw [units, ten_zpow_of_neg hz]
    push_cast
    generalize (one : ℚ) = o
    field_simp

theorem readsBack_iff {u digits : Nat} {power : Int} :
    readsBack u digits power = true ↔ Near u (units digits power) := by
  obtain ⟨hd, hn⟩ := fourUnits_spec digits power
  unfold readsBack Near
  generalize fourUnits digits power = f at hd hn
  generalize interval u = i
  have hq : (0 : ℚ) < f.2 := by exact_mod_cast hd
  have hl (a : Nat) : a * f.2 < f.1 ↔ (a : ℚ) < 4 * units digits power := by
    rw [← mul_lt_mul_iff_left₀ hq, ← hn]
    exact_mod_cast Iff.rfl
  have hr (a : Nat) : f.1 < a * f.2 ↔ 4 * units digits power < a := by
    rw [← mul_lt_mul_iff_left₀ hq, ← hn]
    exact_mod_cast Iff.rfl
  dsimp only
  split
  · simp only [Bool.and_eq_true, decide_eq_true_eq, ← not_lt, hl, hr]
  · simp only [Bool.and_eq_true, decide_eq_true_eq, hl, hr]

theorem pow_length_le {n : Nat} (hn : 0 < n) : Nat.pow 10 ((Nat.toDigits 10 n).length - 1) ≤ n := by
  by_cases hl : (Nat.toDigits 10 n).length - 1 = 0
  · rwa [hl]
  · have hi := Nat.length_toDigits_le_iff (b := 10) (n := n) (by decide) (Nat.pos_of_ne_zero hl)
    exact Nat.le_of_not_lt fun h => absurd (hi.2 h) (by omega)

theorem leadingPower_le {u : Nat} (hp : 0 < u) : (10 : ℚ) ^ leadingPower u * one ≤ u := by
  unfold leadingPower
  generalize hc : 345 = c
  have hb : one ≤ Nat.pow 10 c := hc ▸ by decide +kernel
  have hn : 0 < u * Nat.pow 10 c / one :=
    Nat.div_pos (hb.trans (Nat.le_mul_of_pos_left _ hp)) one_pos
  have hl := Nat.mul_le_mul_right one (pow_length_le hn)
  have hd := Nat.div_mul_le_self (u * Nat.pow 10 c) one
  have hlen := List.length_pos_iff.2 (Nat.toDigits_ne_nil (n := u * Nat.pow 10 c / one) (b := 10))
  generalize (Nat.toDigits 10 (u * Nat.pow 10 c / one)).length = len at hl hlen
  have hz : (len : Int) - 346 = ((len - 1 : Nat) : Int) - (c : Int) := by omega
  have ht : (0 : ℚ) < 10 ^ c := by positivity
  rw [hz, zpow_sub₀ (by norm_num), zpow_natCast, zpow_natCast, div_mul_eq_mul_div, div_le_iff₀ ht]
  exact_mod_cast hl.trans hd

/-- The interval around a double is wider than the `10 ^ 16`th part of it. -/
theorem interval_wide {u : Nat} (hu : spacing u ∣ u) (hp : 0 < u) :
    (interval u).1 < 4 * u ∧ 4 * u < (interval u).2 ∧
      4 * u + 10 ^ 16 * (interval u).1 < 10 ^ 16 * (interval u).2 := by
  obtain ⟨m, k, rfl, hs, hm, hk⟩ := exists_bits hu
  have hg := Nat.two_pow_pos k
  have hm0 : 0 < m := Nat.pos_of_mul_pos_right hp
  have hmg := Nat.mul_le_mul_right (2 ^ k) (show m ≤ 2 ^ 53 - 1 by omega)
  have hmg' := Nat.mul_le_mul_right (2 ^ k) hm0
  simp only [interval, hs]
  split
  · rename_i hb
    have hb' := hk.resolve_left fun h => absurd hb.1 (by simp [h])
    have he := hb.2
    rw [log2_bits hb' hm, Nat.pow_eq, Nat.pow_add] at he
    omega
  · omega

theorem near_of_step {u l : Nat} {g : ℚ} (hu : spacing u ∣ u) (hp : 0 < u) (hg : g * 10 ^ 16 ≤ u)
    (hl : l * g ≤ u) (hh : u < (l + 1) * g) : Near u (l * g) ∨ Near u ((l + 1) * g) := by
  obtain ⟨h₁, h₂, hw⟩ := interval_wide hu hp
  have h₁ : ((interval u).1 : ℚ) < 4 * u := by exact_mod_cast h₁
  have h₂ : (4 * u : ℚ) < (interval u).2 := by exact_mod_cast h₂
  have hw : (4 * u + 10 ^ 16 * (interval u).1 : ℚ) < 10 ^ 16 * (interval u).2 := by
    exact_mod_cast hw
  -- If neither did, the interval would lie between the two and be no wider than the step.
  by_contra hn
  rw [not_or] at hn
  have hn₁ : 4 * (l * g) ≤ (interval u).1 := by
    by_contra hc
    refine hn.1 ?_
    unfold Near
    split <;> constructor <;> linarith
  have hn₂ : (interval u).2 ≤ 4 * ((l + 1) * g) := by
    by_contra hc
    refine hn.2 ?_
    unfold Near
    split <;> constructor <;> linarith
  linarith

theorem onGrid?_cases (u : Nat) (power : Int) : ∃ n d : Nat, 0 < d ∧
    (n : ℚ) * (10 ^ power * one) = u * d ∧
    (readsBack u (n / d) power ∧ readsBack u (n / d + 1) power ∧
        onGrid? u power = some (nearest n d) ∨
      readsBack u (n / d) power ∧ onGrid? u power = some (n / d) ∨
      readsBack u (n / d + 1) power ∧ onGrid? u power = some (n / d + 1) ∨
      ¬readsBack u (n / d) power ∧ ¬readsBack u (n / d + 1) power ∧ onGrid? u power = none) := by
  obtain ⟨n, d, hf, hd, he⟩ : ∃ n d : Nat, (if 0 ≤ power then (u, one * Nat.pow 10 power.toNat)
      else (u * Nat.pow 10 (-power).toNat, one)) = (n, d) ∧ 0 < d ∧
      (n : ℚ) * (10 ^ power * one) = u * d := by
    by_cases hz : 0 ≤ power
    · refine ⟨_, _, if_pos hz, Nat.mul_pos one_pos (ten_pow_pos _), ?_⟩
      rw [ten_zpow_of_nonneg hz]
      push_cast
      ring
    · have ht : ((Nat.pow 10 (-power).toNat : Nat) : ℚ) ≠ 0 := by exact_mod_cast (ten_pow_pos _).ne'
      refine ⟨_, _, if_neg hz, one_pos, ?_⟩
      rw [ten_zpow_of_neg hz]
      push_cast
      generalize (one : ℚ) = o
      field_simp
  refine ⟨n, d, hd, he, ?_⟩
  rw [onGrid?, hf]
  cases h₁ : readsBack u (n / d) power <;> cases h₂ : readsBack u (n / d + 1) power <;> simp [h₁, h₂]

theorem nearest_neighbour (num den : Nat) :
    nearest num den = num / den ∨ nearest num den = num / den + 1 := by
  unfold nearest
  dsimp only
  split
  · exact .inl rfl
  · split
    · exact .inr rfl
    · omega

theorem onGrid?_near {u c : Nat} {power : Int} (h : onGrid? u power = some c) :
    Near u (units c power) := by
  obtain ⟨n, d, -, -, ⟨h₁, h₂, ho⟩ | ⟨h₁, ho⟩ | ⟨h₂, ho⟩ | ⟨-, -, ho⟩⟩ := onGrid?_cases u power <;>
    rw [h] at ho <;> cases ho
  · obtain hn | hn := nearest_neighbour n d <;> rw [hn]
    · exact readsBack_iff.1 h₁
    · exact readsBack_iff.1 h₂
  · exact readsBack_iff.1 h₁
  · exact readsBack_iff.1 h₂

theorem onGrid?_ne_none {u : Nat} {power : Int} (hu : spacing u ∣ u) (hp : 0 < u)
    (hg : (10 : ℚ) ^ power * one * 10 ^ 16 ≤ u) : onGrid? u power ≠ none := by
  obtain ⟨n, d, hd, he, ho⟩ := onGrid?_cases u power
  have hx (c : Nat) : units c power = c * (10 ^ power * one) := mul_assoc ..
  have hq : (0 : ℚ) < d := by exact_mod_cast hd
  have hg0 : (0 : ℚ) < 10 ^ power * one := mul_pos (by positivity) (by exact_mod_cast one_pos)
  have hl : ((n / d : Nat) * d : ℚ) ≤ n := by exact_mod_cast Nat.div_mul_le_self n d
  have hh : (n : ℚ) < ((n / d : Nat) + 1) * d := by
    exact_mod_cast (Nat.div_lt_iff_lt_mul hd).1 (Nat.lt_succ_self (n / d))
  have hn : Near u ((n / d : Nat) * (10 ^ power * one)) ∨
      Near u (((n / d : Nat) + 1) * (10 ^ power * one)) := by
    generalize (10 : ℚ) ^ power * one = g at *
    generalize n / d = l at *
    refine near_of_step hu hp hg (le_of_mul_le_mul_right ?_ hq) (lt_of_mul_lt_mul_right ?_ hq.le)
    · have := mul_le_mul_of_nonneg_right hl hg0.le
      linarith
    · have := mul_lt_mul_of_pos_right hh hg0
      linarith
  rw [← Nat.cast_add_one, ← hx, ← hx, ← readsBack_iff, ← readsBack_iff] at hn
  obtain ⟨-, -, ho⟩ | ⟨-, ho⟩ | ⟨-, ho⟩ | ⟨h₁, h₂, -⟩ := ho
  · simp [ho]
  · simp [ho]
  · simp [ho]
  · exact absurd hn (not_or.2 ⟨h₁, h₂⟩)

theorem shortest_near {u : Nat} (hu : spacing u ∣ u) (hp : 0 < u) :
    Near u (units (shortest u).1 (shortest u).2) := by
  have hs : shortest u = ((List.range 17).findSome? fun n : Nat =>
      (onGrid? u (leadingPower u - n)).map (·, leadingPower u - n)).getD (u, 0) := rfl
  rw [hs]
  cases hf : (List.range 17).findSome? fun n : Nat =>
      (onGrid? u (leadingPower u - n)).map (·, leadingPower u - n) with
  | none =>
    have hn := List.findSome?_eq_none_iff.1 hf 16 (by simp)
    refine absurd (Option.map_eq_none_iff.1 hn) (onGrid?_ne_none hu hp ?_)
    have hl := leadingPower_le hp
    have hs : (10 : ℚ) ^ (leadingPower u - (16 : Nat)) * 10 ^ 16 = 10 ^ leadingPower u := by
      rw [zpow_sub₀ (by norm_num), zpow_natCast, div_mul_cancel₀ _ (by norm_num)]
    rwa [mul_right_comm, hs]
  | some x =>
    obtain ⟨n, -, hn⟩ := List.exists_of_findSome?_eq_some hf
    obtain ⟨d, hd, rfl⟩ := Option.map_eq_some_iff.1 hn
    exact onGrid?_near hd

end CodeAudit.Binary64
