import CodeAudit.Proofs.Number.Monotone
import CodeAudit.Proofs.Number.Nearest

/-!
How far rounding can lead away. One operation adds an error of no more than the distance between neighbouring doubles,
so that the errors of several ones add up to a bound on the whole.
-/
set_option autoImplicit false

namespace CodeAudit.Binary64

theorem spacing_le_two_pow {q k : Nat} (h : q < 2 ^ (53 + k)) : spacing q ≤ 2 ^ k := by
  refine Nat.pow_le_pow_right (by decide) ?_
  by_cases hq : q = 0
  · subst hq
    exact Nat.zero_le k
  · have hlog := (Nat.log2_lt hq).2 h
    omega

/-- A quotient is rounded to one of the two multiples of the spacing that it lies between. -/
theorem roundUnits_error {num den : Nat} (hd : 0 < den) :
    roundUnits num den * den ≤ num + spacing (num / den) * den ∧
      num ≤ roundUnits num den * den + spacing (num / den) * den := by
  unfold roundUnits
  dsimp only
  generalize hs : spacing (num / den) = s
  have hgap : 0 < den * s := Nat.mul_pos hd (hs ▸ spacing_pos _)
  have hswap (n : Nat) : n * s * den = n * (den * s) := by ring
  have hlow := Nat.mul_le_mul_right (den * s) (div_le_nearest num (den * s))
  have hhigh := Nat.mul_le_mul_right (den * s) (nearest_le_succ num (den * s))
  have hnum := Nat.div_add_mod' num (den * s)
  have hrest := Nat.mod_lt num hgap
  rw [Nat.succ_mul] at hhigh
  rw [hswap, Nat.mul_comm s den]
  omega

theorem ofUnits_error {q d k : Nat} (hd : 0 < d) (hq : q < 2 ^ (53 + k)) (hk : k ≤ 2044) :
    ∃ u, ofUnits false (q * d) d = .finite false u ∧ u ≤ q + 2 ^ k ∧ q ≤ u + 2 ^ k := by
  obtain ⟨hhigh, hlow⟩ : _ ∧ q * d ≤ _ := roundUnits_error hd
  rw [Nat.mul_div_cancel q hd, ← Nat.add_mul] at hhigh hlow
  have hspacing := spacing_le_two_pow hq
  have hhigh := Nat.le_of_mul_le_mul_right hhigh hd
  have hlow := Nat.le_of_mul_le_mul_right hlow hd
  have hrange : roundUnits (q * d) d < limit := by
    have htwice : 2 ^ (53 + k) + 2 ^ k ≤ 2 ^ (54 + k) := by
      rw [Nat.pow_add, Nat.pow_add]
      omega
    have hlimit := two_pow_le_limit (show 54 + k ≤ 2098 by omega)
    omega
  exact ⟨_, by rw [ofUnits, if_pos hrange], by omega, by omega⟩

/-- Finite and not negative, and `den` times its units are `num`, give or take `err`. -/
def About (den num err : Nat) (x : Binary64) : Prop :=
  ∃ u, x = .finite false u ∧ den * u ≤ num + err ∧ num ≤ den * u + err

namespace About
variable {den a b d e k n : Nat} {x y : Binary64}

theorem mono (h : About den a d x) (hde : d ≤ e) : About den a e x := by
  obtain ⟨u, hx, hhigh, hlow⟩ := h
  exact ⟨u, hx, by omega, by omega⟩

theorem add (hx : About den a d x) (hy : About den b e y) (hrange : a + b + d + e < den * 2 ^ (53 + k))
    (hk : k ≤ 2044) :
    About den (a + b) (d + e + den * 2 ^ k) (x.add y) := by
  obtain ⟨u, rfl, hu, hu'⟩ := hx
  obtain ⟨v, rfl, hv, hv'⟩ := hy
  have hsum : den * (u + v) = den * u + den * v := Nat.mul_add _ _ _
  have hq : u + v < 2 ^ (53 + k) := Nat.lt_of_mul_lt_mul_left (a := den) (by omega)
  obtain ⟨w, hw, hhigh, hlow⟩ := ofUnits_error Nat.one_pos hq hk
  rw [Nat.mul_one, ← add_finite] at hw
  have hhigh := Nat.mul_le_mul_left den hhigh
  have hlow := Nat.mul_le_mul_left den hlow
  rw [Nat.mul_add _ _ (2 ^ k)] at hhigh hlow
  exact ⟨w, hw, by omega, by omega⟩

theorem ofNat_finite_of_lt {n : Nat} (hn : n < 2 ^ 53) : ofNat n = .finite false (n * one) := by
  have hbeyond : 2 ^ 53 < beyond := by decide +kernel
  obtain ⟨m, hm, -, hsame, -⟩ := ofNat_nearest (hn.trans hbeyond)
  rw [hm, hsame hn.le]

theorem ofNat_mul (hy : About den b e y) (hn : n < 2 ^ 53) (hrange : n * b + n * e < den * 2 ^ (53 + k))
    (hk : k ≤ 2044) :
    About den (n * b) (n * e + den * 2 ^ k) ((ofNat n).mul y) := by
  obtain ⟨v, rfl, hv, hv'⟩ := hy
  have hv := Nat.mul_le_mul_left n hv
  have hv' := Nat.mul_le_mul_left n hv'
  have hswap : n * (den * v) = den * (n * v) := Nat.mul_left_comm n den v
  rw [Nat.mul_add, hswap] at hv hv'
  have hq : n * v < 2 ^ (53 + k) := Nat.lt_of_mul_lt_mul_left (a := den) (by omega)
  obtain ⟨w, hw, hhigh, hlow⟩ := ofUnits_error one_pos hq hk
  rw [Nat.mul_right_comm, ← mul_finite, ← ofNat_finite_of_lt hn] at hw
  have hhigh := Nat.mul_le_mul_left den hhigh
  have hlow := Nat.mul_le_mul_left den hlow
  rw [Nat.mul_add _ _ (2 ^ k)] at hhigh hlow
  exact ⟨w, hw, by omega, by omega⟩

end About
end CodeAudit.Binary64
