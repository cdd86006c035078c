import CodeAudit.Proofs.Number.Rounding

set_option autoImplicit false

namespace CodeAudit.Binary64

theorem div_le_nearest (num den : Nat) : num / den ≤ nearest num den := by
  unfold nearest
  dsimp only
  split
  · exact Nat.le_refl _
  · split <;> omega

theorem nearest_le_succ (num den : Nat) : nearest num den ≤ num / den + 1 := by
  unfold nearest
  dsimp only
  split
  · omega
  · split <;> omega

theorem nearest_mono {a b : Nat} (den : Nat) (h : a ≤ b) : nearest a den ≤ nearest b den := by
  have hq := Nat.div_le_div_right (c := den) h
  by_cases hlt : a / den < b / den
  · exact (nearest_le_succ a den).trans (hlt.trans_le (div_le_nearest b den))
  · -- Within one quotient the remainders keep the order.
    have ha := Nat.div_add_mod a den
    have hb := Nat.div_add_mod b den
    have heq : a / den = b / den := by omega
    rw [heq] at ha
    have hr : a % den ≤ b % den := by omega
    unfold nearest
    rw [heq]
    generalize b / den = q
    generalize a % den = r at hr
    generalize b % den = r' at hr
    dsimp only
    split_ifs <;> omega

theorem nearest_mul {num den : Nat} (h : 0 < den) : nearest (num * den) den = num := by
  unfold nearest
  rw [Nat.mul_div_cancel _ h, Nat.mul_mod_left]
  simp [h]

theorem spacing_pos (q : Nat) : 0 < spacing q := Nat.two_pow_pos _

theorem spacing_le {q : Nat} (h : q ≠ 0) : spacing q ≤ q :=
  (Nat.pow_le_pow_right (by decide) (Nat.sub_le _ _)).trans (Nat.log2_self_le h)

theorem lt_mul_spacing (q : Nat) : q < 2 ^ 53 * spacing q := by
  have hlog : Nat.log2 q + 1 ≤ 53 + (Nat.log2 q - 52) := by omega
  rw [spacing, Nat.pow_eq, ← Nat.pow_add]
  exact Nat.lt_log2_self.trans_le (Nat.pow_le_pow_right (by decide) hlog)

theorem roundUnits_le (num den : Nat) : roundUnits num den ≤ 2 * (num / den) + 1 := by
  have hn := nearest_le_succ num (den * spacing (num / den))
  rw [← Nat.div_div_eq_div_mul] at hn
  have hm := Nat.mul_le_mul_right (spacing (num / den)) hn
  have hd := Nat.div_mul_le_self (num / den) (spacing (num / den))
  rw [Nat.add_mul, Nat.one_mul] at hm
  have hs : spacing (num / den) ≤ num / den + 1 := by
    by_cases hq : num / den = 0
    · rw [hq]
      decide
    · exact (spacing_le hq).trans (Nat.le_succ _)
  unfold roundUnits
  dsimp only
  omega

theorem roundUnits_mono {a b : Nat} (den : Nat) (h : a ≤ b) : roundUnits a den ≤ roundUnits b den := by
  have hq := Nat.div_le_div_right (c := den) h
  by_cases hs : spacing (a / den) = spacing (b / den)
  · unfold roundUnits
    rw [hs]
    exact Nat.mul_le_mul_right _ (nearest_mono _ h)
  · -- Otherwise a power of two with its 53 bits lies between them.
    have hb : b / den ≠ 0 := by
      intro h0
      rw [h0] at hq hs
      exact hs (by rw [Nat.le_zero.1 hq])
    have hlog : Nat.log2 (a / den) ≤ Nat.log2 (b / den) := by
      by_cases ha : a / den = 0
      · simp [ha]
      · exact (Nat.le_log2 hb).2 ((Nat.log2_self_le ha).trans hq)
    have hlt : Nat.log2 (a / den) - 52 + 1 ≤ Nat.log2 (b / den) - 52 := by
      by_contra hle
      exact hs (by rw [spacing, spacing, show Nat.log2 (a / den) - 52 = Nat.log2 (b / den) - 52 by omega])
    have htwice : 2 * spacing (a / den) ≤ spacing (b / den) := by
      rw [spacing, spacing, Nat.pow_eq, ← Nat.pow_succ']
      exact Nat.pow_le_pow_right (by decide) hlt
    have hbits : 2 ^ 52 ≤ b / den / spacing (b / den) := by
      rw [Nat.le_div_iff_mul_le (spacing_pos _), spacing, Nat.pow_eq, ← Nat.pow_add]
      refine (Nat.pow_le_pow_right (by decide) ?_).trans (Nat.log2_self_le hb)
      omega
    have hlow : roundUnits a den ≤ 2 ^ 53 * spacing (a / den) := by
      have hdiv : a / den / spacing (a / den) < 2 ^ 53 := (Nat.div_lt_iff_lt_mul (spacing_pos _)).2 (lt_mul_spacing _)
      rw [Nat.div_div_eq_div_mul] at hdiv
      exact Nat.mul_le_mul_right _ ((nearest_le_succ a _).trans hdiv)
    have hhigh : 2 ^ 52 * spacing (b / den) ≤ roundUnits b den := by
      rw [Nat.div_div_eq_div_mul] at hbits
      exact Nat.mul_le_mul_right _ (hbits.trans (div_le_nearest b _))
    omega

theorem roundUnits_mul {u den : Nat} (hu : spacing u ∣ u) (hd : 0 < den) : roundUnits (u * den) den = u := by
  obtain ⟨m, hm⟩ := hu
  unfold roundUnits
  rw [Nat.mul_div_cancel _ hd]
  have hnum : u * den = m * (den * spacing u) := by
    conv_lhs => rw [hm]
    ac_rfl
  dsimp only
  rw [hnum, nearest_mul (Nat.mul_pos hd (spacing_pos u)), Nat.mul_comm]
  exact hm.symm

theorem spacing_dvd {m : Nat} (hm : m < 2 ^ 53) (k : Nat) : spacing (m * 2 ^ k) ∣ m * 2 ^ k := by
  by_cases h : m * 2 ^ k = 0
  · rw [h]
    exact Nat.dvd_zero _
  · have hlog : Nat.log2 (m * 2 ^ k) < 53 + k := by
      rw [Nat.log2_lt h, Nat.pow_add]
      exact Nat.mul_lt_mul_of_pos_right hm (Nat.two_pow_pos k)
    exact (Nat.pow_dvd_pow 2 (by omega)).trans (Nat.dvd_mul_left _ _)

theorem two_pow_le_limit {k : Nat} (h : k ≤ 2098) : 2 ^ k ≤ limit := by
  have hlimit : ∃ n : Nat, n = 2098 ∧ limit = Nat.pow 2 n := ⟨2098, by decide +kernel⟩
  obtain ⟨n, hn, hlimit⟩ := hlimit
  rw [hlimit]
  exact Nat.pow_le_pow_right (by decide) (hn ▸ h)

theorem ofUnits_finite {num den k : Nat} (neg : Bool) (h : num / den < 2 ^ k) (hk : k < 2098) :
    ∃ u, u < 2 ^ (k + 1) ∧ ofUnits neg num den = .finite neg u := by
  have hr := roundUnits_le num den
  have hu : roundUnits num den < 2 ^ (k + 1) := by
    rw [Nat.pow_succ']
    omega
  have hl : roundUnits num den < limit := hu.trans_le (two_pow_le_limit hk)
  exact ⟨roundUnits num den, hu, by rw [ofUnits, if_pos hl]⟩

theorem ofNat_eq (n : Nat) : ofNat n = ofUnits false (n * one) 1 := rfl

theorem ofNat_infinite {n : Nat} {neg : Bool} (h : ofNat n = .infinite neg) : neg = false := by
  rw [ofNat_eq, ofUnits] at h
  split at h
  · cases h
  · exact (Binary64.infinite.inj h).symm

def beyond : Nat := 2 ^ 1024 - 2 ^ 970

theorem roundUnits_beyond : limit ≤ roundUnits (beyond * one) 1 ∧ roundUnits ((beyond - 1) * one) 1 < limit := by
  decide +kernel

/-- An integer has no double exactly from the middle between the greatest double and the next power of two on. -/
theorem ofNat_infinite_iff {n : Nat} : ofNat n = .infinite false ↔ beyond ≤ n := by
  rw [ofNat_eq, ofUnits]
  constructor
  · intro h
    by_contra hn
    have hle : n * one ≤ (beyond - 1) * one := Nat.mul_le_mul_right _ (by omega)
    rw [if_pos ((roundUnits_mono 1 hle).trans_lt roundUnits_beyond.2)] at h
    cases h
  · intro hn
    have hle := roundUnits_beyond.1.trans (roundUnits_mono 1 (Nat.mul_le_mul_right one hn))
    exact if_neg (by omega)

end CodeAudit.Binary64
