import CodeAudit.Number.Shortest
import Mathlib.Algebra.Order.Field.Power
import Mathlib.Data.Rat.Cast.Order
import Mathlib.Tactic.FieldSimp
import Mathlib.Tactic.Linarith
import Mathlib.Tactic.Positivity

/-!
Which quotients round to a double. Around each double lies an interval that reaches halfway to its
neighbours; whatever lies in it is rounded to that double, the ends only if its last bit is zero.
-/
set_option autoImplicit false

namespace CodeAudit.Binary64

/-- At most 53 significant bits, and in range. -/
def Valid : Binary64 → Prop
  | .finite _ u => spacing u ∣ u ∧ u < limit
  | _ => True

instance : (x : Binary64) → Decidable x.Valid
  | .nan | .infinite _ => inferInstanceAs (Decidable True)
  | .finite _ u => inferInstanceAs (Decidable (spacing u ∣ u ∧ u < limit))

theorem nearest_eq {num den q : Nat} (hd : 0 < den) (hl : 2 * (q * den) ≤ 2 * num + den)
    (hh : 2 * num ≤ 2 * (q * den) + den)
    (ht : 2 * (q * den) = 2 * num + den ∨ 2 * num = 2 * (q * den) + den → q % 2 = 0) :
    nearest num den = q := by
  have hq := Nat.div_add_mod' num den
  have hr := Nat.mod_lt num hd
  unfold nearest
  generalize num / den = a at hq
  generalize num % den = r at hq hr
  dsimp only
  have ha : q = a ∨ q = a + 1 := by
    by_contra hn
    obtain h | h : q + 1 ≤ a ∨ a + 2 ≤ q := by omega
    · have hm := Nat.mul_le_mul_right den h
      rw [Nat.succ_mul] at hm
      omega
    · have hm := Nat.mul_le_mul_right den h
      rw [Nat.add_mul] at hm
      omega
  obtain rfl | rfl := ha
  · split
    · rfl
    · rw [if_neg (by omega), ht (.inr (by omega)), Nat.add_zero]
  · rw [Nat.succ_mul a] at hl hh ht
    rw [if_neg (by omega)]
    split
    · rfl
    · have := ht (.inl (by omega))
      omega

theorem spacing_of_lt {q : Nat} (h : q < 2 ^ 53) : spacing q = 1 := by
  have hl : Nat.log2 q ≤ 52 := by
    by_cases hq : q = 0
    · simp [hq]
    · exact Nat.lt_succ_iff.1 ((Nat.log2_lt hq).2 h)
  rw [spacing, Nat.sub_eq_zero_of_le hl, Nat.pow_eq, Nat.pow_zero]

theorem log2_of_mem {q k : Nat} (hl : 2 ^ 52 * 2 ^ k ≤ q) (hh : q < 2 ^ 53 * 2 ^ k) :
    Nat.log2 q = 52 + k := by
  have hp := Nat.two_pow_pos k
  have hq : q ≠ 0 := by omega
  rw [← Nat.pow_add] at hl hh
  exact (Nat.log2_eq_iff hq).2 ⟨hl, by rwa [Nat.add_right_comm]⟩

theorem spacing_of_mem {q k : Nat} (hl : 2 ^ 52 * 2 ^ k ≤ q) (hh : q < 2 ^ 53 * 2 ^ k) :
    spacing q = 2 ^ k := by
  rw [spacing, log2_of_mem hl hh, Nat.add_sub_cancel_left]
  rfl

theorem log2_bits {m k : Nat} (hl : 2 ^ 52 ≤ m) (hh : m < 2 ^ 53) : Nat.log2 (m * 2 ^ k) = 52 + k :=
  log2_of_mem (Nat.mul_le_mul_right _ hl) ((Nat.mul_lt_mul_right (Nat.two_pow_pos k)).2 hh)

theorem exists_bits {u : Nat} (h : spacing u ∣ u) :
    ∃ m k, u = m * 2 ^ k ∧ spacing u = 2 ^ k ∧ m < 2 ^ 53 ∧ (k = 0 ∨ 2 ^ 52 ≤ m) := by
  by_cases hs : u < 2 ^ 53
  · exact ⟨u, 0, by simp, spacing_of_lt hs, hs, .inl rfl⟩
  · obtain ⟨k, hk⟩ : ∃ k, Nat.log2 u = 52 + k :=
      ⟨_, (Nat.add_sub_of_le ((Nat.le_log2 (by omega)).2 (by omega))).symm⟩
    have hl : 2 ^ 52 * 2 ^ k ≤ u := by
      rw [← Nat.pow_add, ← hk]
      exact Nat.log2_self_le (by omega)
    have hh : u < 2 ^ 53 * 2 ^ k := by
      rw [← Nat.pow_add, show 53 + k = Nat.log2 u + 1 by omega]
      exact Nat.lt_log2_self
    have hs := spacing_of_mem hl hh
    obtain ⟨m, hm⟩ := h
    rw [hs, Nat.mul_comm] at hm
    rw [hm] at hl hh
    exact ⟨m, k, hm, hs, Nat.lt_of_mul_lt_mul_right hh,
      .inr (Nat.le_of_mul_le_mul_right hl (Nat.two_pow_pos k))⟩

/-- The interval around `u` units holds this many units. -/
def Near (u : Nat) (x : ℚ) : Prop :=
  if (u / spacing u) % 2 = 0 then (interval u).1 ≤ 4 * x ∧ 4 * x ≤ (interval u).2
  else (interval u).1 < 4 * x ∧ 4 * x < (interval u).2

theorem Near.le {u : Nat} {x : ℚ} (h : Near u x) :
    (interval u).1 ≤ 4 * x ∧ 4 * x ≤ (interval u).2 := by
  unfold Near at h
  split at h
  · exact h
  · exact ⟨h.1.le, h.2.le⟩

theorem Near.even {u : Nat} {x : ℚ} (h : Near u x)
    (he : (interval u).1 = 4 * x ∨ 4 * x = (interval u).2) : (u / spacing u) % 2 = 0 := by
  unfold Near at h
  split at h
  · assumption
  · obtain he | he := he
    · exact absurd he h.1.ne
    · exact absurd he h.2.ne

theorem Near.of_div {u num den : Nat} (hd : 0 < den) (h : Near u ((num : ℚ) / den)) :
    (interval u).1 * den ≤ 4 * num ∧ 4 * num ≤ (interval u).2 * den ∧
      ((interval u).1 * den = 4 * num ∨ 4 * num = (interval u).2 * den →
        (u / spacing u) % 2 = 0) := by
  have hq : (0 : ℚ) < den := by exact_mod_cast hd
  obtain ⟨hl, hh⟩ := h.le
  have he := h.even
  rw [← mul_div_assoc] at hl hh he
  rw [le_div_iff₀ hq] at hl
  rw [div_le_iff₀ hq] at hh
  rw [eq_div_iff hq.ne', div_eq_iff hq.ne'] at he
  exact ⟨by exact_mod_cast hl, by exact_mod_cast hh, fun hc => he (by exact_mod_cast hc)⟩

theorem roundUnits_of_spacing {num den m k : Nat} (hd : 0 < den) (hs : spacing (num / den) = 2 ^ k)
    (hl : 2 * (m * (2 ^ k * den)) ≤ 2 * num + 2 ^ k * den)
    (hh : 2 * num ≤ 2 * (m * (2 ^ k * den)) + 2 ^ k * den)
    (ht : 2 * (m * (2 ^ k * den)) = 2 * num + 2 ^ k * den ∨
      2 * num = 2 * (m * (2 ^ k * den)) + 2 ^ k * den → m % 2 = 0) :
    roundUnits num den = m * 2 ^ k := by
  rw [roundUnits, hs, Nat.mul_comm den, nearest_eq (Nat.mul_pos (Nat.two_pow_pos k) hd) hl hh ht]

theorem spacing_div_of_mem {num den k : Nat} (hd : 0 < den) (hl : 2 ^ 52 * (2 ^ k * den) ≤ num)
    (hh : num < 2 ^ 53 * (2 ^ k * den)) : spacing (num / den) = 2 ^ k := by
  rw [← Nat.mul_assoc] at hl hh
  exact spacing_of_mem ((Nat.le_div_iff_mul_le hd).2 hl) ((Nat.div_lt_iff_lt_mul hd).2 hh)

/-- Below the least number of its bits the neighbours are half as far away as above it. -/
theorem roundUnits_of_least {num den k : Nat} (hd : 0 < den) (hk : k ≠ 0)
    (hl : 4 * (2 ^ 52 * (2 ^ k * den)) ≤ 4 * num + 2 ^ k * den)
    (hh : 4 * num ≤ 4 * (2 ^ 52 * (2 ^ k * den)) + 2 * (2 ^ k * den)) :
    roundUnits num den = 2 ^ 52 * 2 ^ k := by
  have hg := Nat.mul_pos (Nat.two_pow_pos k) hd
  -- Below it a quotient has one more bit behind the point, and is rounded there.
  by_cases hn : 2 ^ 52 * (2 ^ k * den) ≤ num
  · exact roundUnits_of_spacing hd (spacing_div_of_mem hd hn (by omega)) (by omega) (by omega)
      fun _ => by decide
  · obtain ⟨j, rfl⟩ : ∃ j, k = j + 1 := ⟨k - 1, by omega⟩
    have hj : 2 ^ (j + 1) * den = 2 * (2 ^ j * den) := by rw [Nat.pow_succ', Nat.mul_assoc]
    rw [hj] at hl hn hg
    have hs : spacing (num / den) = 2 ^ j := spacing_div_of_mem hd (by omega) (by omega)
    have hr : roundUnits num den = 2 ^ 53 * 2 ^ j :=
      roundUnits_of_spacing hd hs (by omega) (by omega) fun _ => by decide
    rw [hr, ← Nat.pow_add, ← Nat.pow_add]
    congr 1
    omega

/-- A quotient in the interval of a count of units with 53 significant bits rounds to it. -/
theorem roundUnits_of_near {u num den : Nat} (hu : spacing u ∣ u) (hd : 0 < den)
    (h : Near u ((num : ℚ) / den)) : roundUnits num den = u := by
  obtain ⟨m, k, rfl, hs, hm, hk⟩ := exists_bits hu
  obtain ⟨hl, hh, ht⟩ := h.of_div hd
  have hg := Nat.mul_pos (Nat.two_pow_pos k) hd
  rw [hs, Nat.mul_div_cancel _ (Nat.two_pow_pos k)] at ht
  simp only [interval, hs, Nat.sub_mul, Nat.add_mul, Nat.mul_assoc] at hl hh ht
  have hmg : m * (2 ^ k * den) ≤ (2 ^ 53 - 1) * (2 ^ k * den) := Nat.mul_le_mul_right _ (by omega)
  -- The interval reaches less far down exactly at the least number of its bits.
  split at hl
  · rename_i hp
    have hk0 : k ≠ 0 := by
      rintro rfl
      exact absurd hp.1 (by decide)
    have hb := hk.resolve_left hk0
    have he := hp.2
    rw [log2_bits hb hm, Nat.pow_eq, Nat.pow_add] at he
    obtain rfl := Nat.eq_of_mul_eq_mul_right (Nat.two_pow_pos k) he
    exact roundUnits_of_least hd hk0 (by omega) (by omega)
  · rename_i hp
    rw [if_neg hp] at ht
    simp only [Nat.mul_assoc] at hl ht
    refine roundUnits_of_spacing hd ?_ (by omega) (by omega) fun hc => ht (by omega)
    by_cases hk0 : k = 0
    · subst hk0
      exact spacing_of_lt ((Nat.div_lt_iff_lt_mul hd).2 (by omega))
    · have hn : m ≠ 2 ^ 52 := by
        rintro rfl
        refine hp ⟨Nat.one_lt_two_pow hk0, ?_⟩
        rw [log2_bits (Nat.le_refl _) hm, Nat.pow_eq, Nat.pow_add]
      have hb := hk.resolve_left hk0
      have hmg' : (2 ^ 52 + 1) * (2 ^ k * den) ≤ m * (2 ^ k * den) :=
        Nat.mul_le_mul_right _ (by omega)
      exact spacing_div_of_mem hd (by omega) (by omega)

theorem Near.bounds {u : Nat} {x : ℚ} (hu : spacing u ∣ u) (hp : 0 < u) (h : Near u x) :
    u ≤ 2 * x ∧ 2 * x ≤ 3 * u := by
  have hs := Nat.le_of_dvd hp hu
  have hl : 2 * u ≤ (interval u).1 := by
    simp only [interval]
    split <;> omega
  have hh : (interval u).2 ≤ 6 * u := by
    simp only [interval]
    omega
  have hl : (2 * u : ℚ) ≤ (interval u).1 := by exact_mod_cast hl
  have hh : ((interval u).2 : ℚ) ≤ 6 * u := by exact_mod_cast hh
  obtain ⟨h₁, h₂⟩ := h.le
  constructor <;> linarith

def units (digits : Nat) (power : Int) : ℚ := digits * 10 ^ power * one

theorem ten_zpow_of_nonneg {p : Int} (h : 0 ≤ p) : (10 : ℚ) ^ p = (Nat.pow 10 p.toNat : Nat) := by
  rw [Nat.pow_eq, Nat.cast_pow, ← zpow_natCast, Int.toNat_of_nonneg h]
  rfl

theorem ten_zpow_of_neg {p : Int} (h : ¬0 ≤ p) :
    (10 : ℚ) ^ p = ((Nat.pow 10 (-p).toNat : Nat) : ℚ)⁻¹ := by
  rw [← ten_zpow_of_nonneg (by omega), ← zpow_neg, neg_neg]

theorem ten_pow_pos (n : Nat) : 0 < Nat.pow 10 n := Nat.pow_pos (by decide)

theorem pow_le_ten_zpow {n : Nat} {p : Int} (h : n ≤ p) : ((Nat.pow 10 n : Nat) : ℚ) ≤ 10 ^ p := by
  rw [ten_zpow_of_nonneg (by omega)]
  exact_mod_cast Nat.pow_le_pow_right (by decide) (show n ≤ p.toNat by omega)

theorem ten_zpow_mul_pow_le {n : Nat} {p : Int} (h : p ≤ -n) :
    (10 : ℚ) ^ p * (Nat.pow 10 n : Nat) ≤ 1 := by
  have hn := pow_le_ten_zpow (show (n : Int) ≤ -p by omega)
  have hp : (0 : ℚ) < 10 ^ p := zpow_pos (by norm_num) p
  rw [zpow_neg, le_inv_comm₀ (by exact_mod_cast ten_pow_pos n) hp] at hn
  rwa [← le_div_iff₀ (by exact_mod_cast ten_pow_pos n), one_div]

theorem one_pos : 0 < one := by decide +kernel

theorem exists_far : ∃ n : Nat, n = 401 ∧ 3 * limit ≤ 2 * (Nat.pow 10 n * one) ∧
    4 * one ≤ Nat.pow 10 n := ⟨401, by decide +kernel⟩

theorem power_of_near {u digits : Nat} {power : Int} (hu : spacing u ∣ u) (hp : 0 < u)
    (hl : u < limit) (h : Near u (units digits power)) :
    digits ≠ 0 ∧ power ≤ 400 ∧ -((Nat.log2 digits : Int) + 400) ≤ power := by
  obtain ⟨h₁, h₂⟩ := h.bounds hu hp
  have hq : (1 : ℚ) ≤ u := by exact_mod_cast hp
  have hd : digits ≠ 0 := by
    rintro rfl
    simp only [units, Nat.cast_zero, zero_mul, mul_zero] at h₁
    linarith
  have ho : (0 : ℚ) < one := by exact_mod_cast one_pos
  obtain ⟨n, hc, hf, hf'⟩ := exists_far
  refine ⟨hd, ?_, ?_⟩
  · by_contra hn
    have hw := pow_le_ten_zpow (show (n : Int) ≤ power by omega)
    have hf : (3 * limit : ℚ) ≤ 2 * ((Nat.pow 10 n : Nat) * one) := by exact_mod_cast hf
    have hl : (u : ℚ) < limit := by exact_mod_cast hl
    have hd : (1 : ℚ) ≤ digits := by exact_mod_cast Nat.pos_of_ne_zero hd
    have hx : ((Nat.pow 10 n : Nat) * one : ℚ) ≤ units digits power := by
      refine mul_le_mul_of_nonneg_right ?_ ho.le
      exact hw.trans (le_mul_of_one_le_left (zpow_nonneg (by norm_num) power) hd)
    linarith
  · by_contra hn
    have hd : digits < 2 * Nat.pow 10 (Nat.log2 digits) := by
      have hl := Nat.pow_le_pow_left (show 2 ≤ 10 by decide) (Nat.log2 digits)
      have hs := Nat.lt_log2_self (n := digits)
      rw [Nat.pow_succ'] at hs
      exact hs.trans_le (Nat.mul_le_mul_left 2 hl)
    have hw := ten_zpow_mul_pow_le (show power ≤ -((Nat.log2 digits + n : Nat) : Int) by omega)
    rw [show Nat.pow 10 (Nat.log2 digits + n) = Nat.pow 10 (Nat.log2 digits) * Nat.pow 10 n from
      Nat.pow_add ..] at hw
    generalize Nat.pow 10 n = t at hf' hw
    generalize Nat.pow 10 (Nat.log2 digits) = a at hd hw
    -- The decimal times `a * t` is below `2 * a` ones, and so below `a * t` halves.
    have hf' : (4 * one : ℚ) ≤ t := by exact_mod_cast hf'
    have hd : (digits : ℚ) < 2 * a := by exact_mod_cast hd
    have hd' := mul_lt_mul_of_pos_right hd ho
    have ha := mul_le_mul_of_nonneg_left hf' (show (0 : ℚ) ≤ a from Nat.cast_nonneg a)
    have hx := mul_le_mul_of_nonneg_left hw (mul_nonneg (Nat.cast_nonneg digits) ho.le)
    have hx' := le_mul_of_one_le_left (show (0 : ℚ) ≤ (a * t : Nat) from Nat.cast_nonneg _)
      (show 1 ≤ 2 * units digits power by linarith)
    rw [units] at hx'
    push_cast at hx hx'
    linarith

theorem ofDecimal_of_near {u digits : Nat} {power : Int} (hu : spacing u ∣ u) (hp : 0 < u)
    (hl : u < limit) (h : Near u (units digits power)) (neg : Bool) :
    ofDecimal neg digits power = .finite neg u := by
  obtain ⟨hd, hh, hm⟩ := power_of_near hu hp hl h
  have hr {num den : Nat} (hd : 0 < den) (he : units digits power = num / den) :
      ofUnits neg num den = .finite neg u := by
    rw [he] at h
    rw [ofUnits, roundUnits_of_near hu hd h, if_pos hl]
  rw [ofDecimal, if_neg hd, if_neg (by omega), if_neg (by omega)]
  split
  · rename_i hz
    refine hr Nat.one_pos ?_
    rw [units, ten_zpow_of_nonneg hz]
    push_cast
    rw [div_one]
  · rename_i hz
    refine hr (ten_pow_pos _) ?_
    rw [units, ten_zpow_of_neg hz]
    push_cast
    rw [div_eq_mul_inv, mul_right_comm]

end CodeAudit.Binary64
