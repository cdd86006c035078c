import CodeAudit.Proofs.Number.Order

set_option autoImplicit false

namespace CodeAudit.Binary64

theorem ofUnits_zero : ofUnits false 0 1 = .finite false 0 := by
  have hround : roundUnits (0 * 1) 1 = 0 := roundUnits_mul (Nat.dvd_zero _) Nat.one_pos
  have hlimit : 0 < limit := (Nat.two_pow_pos 0).trans_le (two_pow_le_limit (Nat.zero_le _))
  rw [ofUnits, hround, if_pos hlimit]

theorem add_finite (u v : Nat) : add (.finite false u) (.finite false v) = ofUnits false (u + v) 1 := by
  have hsum : signed false u + signed false v = ((u + v : Nat) : Int) := rfl
  rw [add]
  simp only [hsum]
  split
  · rw [show u + v = 0 by omega, ofUnits_zero]
    rfl
  · rw [Int.natAbs_natCast, decide_eq_false (by omega)]

theorem mul_finite (u v : Nat) : mul (.finite false u) (.finite false v) = ofUnits false (u * v) one := rfl

theorem floor?_finite (u : Nat) : floor? (.finite false u) = some ((u / one : Nat) : Int) := by
  rw [floor?, signed, if_neg Bool.false_ne_true, ← Int.ofNat_fdiv]

/-- Neither number is negative or undefined, and the first is not above the second. -/
inductive AtMost : Binary64 → Binary64 → Prop where
  | finite {u v : Nat} : u ≤ v → AtMost (.finite false u) (.finite false v)
  | below (u : Nat) : AtMost (.finite false u) (.infinite false)
  | infinite : AtMost (.infinite false) (.infinite false)

namespace AtMost
variable {x y x' y' : Binary64}

theorem ofUnits_infinite (num den : Nat) : AtMost (ofUnits false num den) (.infinite false) := by
  rw [ofUnits]
  split
  · exact .below _
  · exact .infinite

theorem ofUnits {a b : Nat} (den : Nat) (h : a ≤ b) : AtMost (ofUnits false a den) (ofUnits false b den) := by
  have hround := roundUnits_mono den h
  by_cases hb : roundUnits b den < limit
  · have ha : roundUnits a den < limit := by omega
    rw [Binary64.ofUnits, Binary64.ofUnits, if_pos ha, if_pos hb]
    exact .finite hround
  · have hinfinite : Binary64.ofUnits false b den = .infinite false := by rw [Binary64.ofUnits, if_neg hb]
    rw [hinfinite]
    exact ofUnits_infinite a den

theorem ofNat {m n : Nat} (h : m ≤ n) : AtMost (ofNat m) (ofNat n) := by
  rw [ofNat_eq, ofNat_eq]
  exact ofUnits 1 (Nat.mul_le_mul_right one h)

theorem add (h : AtMost x y) (h' : AtMost x' y') : AtMost (x.add x') (y.add y') := by
  cases h with
  | finite huv =>
    cases h' with
    | finite huv' =>
      rw [add_finite, add_finite]
      exact ofUnits 1 (Nat.add_le_add huv huv')
    | below u' =>
      rw [add_finite]
      exact ofUnits_infinite _ _
    | infinite => exact .infinite
  | below u =>
    cases h' with
    | finite huv' | below u' =>
      rw [add_finite]
      exact ofUnits_infinite _ _
    | infinite => exact .infinite
  | infinite => cases h' <;> exact .infinite

theorem mul {w : Nat} (hw : w ≠ 0) (h : AtMost x y) : AtMost (x.mul (.finite false w)) (y.mul (.finite false w)) := by
  have hinfinite : Binary64.mul (.infinite false) (.finite false w) = .infinite false := by
    rw [Binary64.mul, if_neg hw]
    rfl
  cases h with
  | finite huv =>
    rw [mul_finite, mul_finite]
    exact ofUnits one (Nat.mul_le_mul_right w huv)
  | below u =>
    rw [mul_finite, hinfinite]
    exact ofUnits_infinite _ _
  | infinite =>
    rw [hinfinite]
    exact .infinite

theorem floor {j : Int} (h : AtMost x y) (hj : y.floor? = some j) : ∃ i, x.floor? = some i ∧ i ≤ j := by
  cases h with
  | @finite u v huv =>
    rw [floor?_finite] at hj
    obtain rfl := Option.some.inj hj
    exact ⟨_, floor?_finite u, Int.ofNat_le.2 (Nat.div_le_div_right huv)⟩
  | below | infinite => cases hj

end AtMost
end CodeAudit.Binary64
