import CodeAudit.Number.Literal
import CodeAudit.Proofs.Number.Order
import Mathlib.Data.List.DropRight

set_option autoImplicit false

namespace CodeAudit.Number
open Text

/-- A digit of a base: a decimal digit of any script, or a small letter, `a` standing for ten. -/
inductive IsDigit (base : Nat) (c : Char) (d : Nat) : Prop
  | decimal (h : digitValue? c = some d) (hd : d < base)
  | letter (h : c.toNat = d + 87) (h10 : 10 ≤ d) (hd : d < base)

/-- One digit of the base or more, the highest first, and their number. -/
inductive Spells (base : Nat) : List Char → Nat → Prop
  | one {c : Char} {d : Nat} (hd : IsDigit base c d) : Spells base [c] d
  | snoc {s : List Char} {c : Char} {n d : Nat} (hs : Spells base s n) (hd : IsDigit base c d) :
      Spells base (s ++ [c]) (n * base + d)

def marks : List (Char × Nat) := [('x', 16), ('o', 8), ('b', 2)]

inductive WholeLiteral : List Char → Nat → Prop
  | announced {mark : Char} {base n : Nat} {digits blanks : List Char}
      (hmark : (mark, base) ∈ marks) (hdigits : Spells base digits n)
      (hblanks : ∀ c ∈ blanks, isNumberBlank c) : WholeLiteral ('0' :: mark :: (digits ++ blanks)) n
  | oldOctal {digits : List Char} {n : Nat} (hzero : digits.head? = some '0') (hlong : 1 < digits.length)
      (hdigits : Spells 8 digits n) : WholeLiteral digits n

variable {base n d : Nat} {c : Char} {s : List Char}

theorem zeros_spread : ∀ z ∈ Table.zeros,
    z = 48 ∨ 1632 ≤ z ∧ (z < 5751 ∨ 5760 < z) ∧ (z < 8183 ∨ 12288 < z) := by decide

theorem digitValue?_zero (h : digitValue? c = some d) : d < 10 ∧ ∃ z ∈ Table.zeros, c.toNat = z + d := by
  unfold digitValue? at h
  split at h
  · rename_i hc
    cases h
    have hr : 48 ≤ c.toNat ∧ c.toNat ≤ 57 := by
      simpa [Char.isDigit, UInt32.le_iff_toNat_le, ← Char.toNat_val] using hc
    exact ⟨by omega, 48, by decide, by omega⟩
  · obtain ⟨z, hz, rfl⟩ := Option.map_eq_some_iff.1 h
    have hmem := List.mem_of_find?_eq_some hz
    have hin := List.find?_some hz
    simp only [Bool.and_eq_true, decide_eq_true_eq] at hin
    exact ⟨by omega, z, hmem, by omega⟩

theorem digitValue?_of_isNumberBlank (h : isNumberBlank c) : digitValue? c = none := by
  cases hd : digitValue? c with
  | none => rfl
  | some d =>
    obtain ⟨hlt, z, hz, hc⟩ := digitValue?_zero hd
    have hz := zeros_spread z hz
    simp only [isNumberBlank, isBlank, Bool.and_eq_true, Bool.or_eq_true, decide_eq_true_eq, beq_iff_eq,
      Bool.not_eq_true', Bool.and_eq_false_iff, decide_eq_false_iff_not] at h
    omega

theorem digitIn?_digitChar (hd : d < 10) :
    valueIn.digitIn? base (Nat.digitChar d) = if d < base then some d else none := by
  have hchars : ∀ d < 10, (Nat.digitChar d).isDigit = true ∧ (Nat.digitChar d).toNat - 48 = d := by decide
  obtain ⟨hdigit, hvalue⟩ := hchars d hd
  simp [valueIn.digitIn?, hdigit, hvalue]

theorem digitIn?_of_not_isDigit (hb : base ≤ 16) (hc : c.isDigit = false) :
    valueIn.digitIn? base c = some d ↔ c.toNat = d + 87 ∧ 10 ≤ d ∧ d < base := by
  have hrange : c.isLower = (decide (c.val ≥ 'a'.val) && decide (c.val ≤ 'z'.val)) := rfl
  have hlow : c.isLower ↔ 97 ≤ c.toNat ∧ c.toNat ≤ 122 := by
    simp [hrange, UInt32.le_iff_toNat_le, ← Char.toNat_val]
  by_cases h : c.isLower
  · have hr := hlow.1 h
    have hval : valueIn.digitIn? base c = if c.toNat - 87 < base then some (c.toNat - 87) else none := by
      simp [valueIn.digitIn?, hc, h]
    rw [hval, Option.ite_none_right_eq_some, Option.some.injEq]
    omega
  · have hr : ¬(97 ≤ c.toNat ∧ c.toNat ≤ 122) := fun hr => h (hlow.2 hr)
    have hval : valueIn.digitIn? base c = none := by simp [valueIn.digitIn?, hc, h]
    rw [hval]
    simp only [reduceCtorEq, false_iff]
    omega

theorem digitIn?_plainDigit (hb : base ≤ 16) :
    valueIn.digitIn? base (plainDigit c) = some d ↔ IsDigit base c d := by
  cases hc : digitValue? c with
  | some e =>
    obtain ⟨he, z, hz, hsum⟩ := digitValue?_zero hc
    rw [plainDigit, hc]
    dsimp only
    rw [digitIn?_digitChar he]
    constructor
    · intro h
      split at h
      · rename_i hlt
        cases h
        exact .decimal hc hlt
      · cases h
    · intro h
      cases h with
      | decimal h hd =>
        cases hc.symm.trans h
        exact if_pos hd
      | letter h h10 hd =>
        have := zeros_spread z hz
        omega
  | none =>
    have hdigit : c.isDigit = false := by
      cases h : c.isDigit with
      | false => rfl
      | true => simp [digitValue?, h] at hc
    rw [plainDigit, hc]
    dsimp only
    rw [digitIn?_of_not_isDigit hb hdigit]
    constructor
    · rintro ⟨h, h10, hd⟩
      exact .letter h h10 hd
    · intro h
      cases h with
      | decimal h hd => cases hc.symm.trans h
      | letter h h10 hd => exact ⟨h, h10, hd⟩

theorem wholeDigits?_eq_some :
    wholeDigits? base s = some n ↔
      s ≠ [] ∧ (∀ c ∈ s, (valueIn.digitIn? base c).isSome) ∧ valueIn base s = n := by
  unfold wholeDigits?
  cases s with
  | nil => simp
  | cons c s =>
    simp only [List.isEmpty_cons, Bool.false_eq_true, if_false, List.all_eq_true]
    split <;> grind

theorem valueIn_snoc : valueIn base (s ++ [c]) = valueIn base s * base + (valueIn.digitIn? base c).getD 0 := by
  simp [valueIn]

theorem wholeDigits?_plainDigit (hb : base ≤ 16) :
    wholeDigits? base (s.map plainDigit) = some n ↔ Spells base s n := by
  constructor
  · intro h
    obtain ⟨hne, hall, rfl⟩ := wholeDigits?_eq_some.1 h
    clear h
    induction s using List.reverseRecOn with
    | nil => exact absurd rfl hne
    | append_singleton s c ih =>
      obtain ⟨d, hd⟩ := Option.isSome_iff_exists.1 (hall (plainDigit c) (by simp))
      rw [List.map_append, List.map_singleton, valueIn_snoc, hd, Option.getD_some]
      cases s with
      | nil => simpa [valueIn] using Spells.one ((digitIn?_plainDigit hb).1 hd)
      | cons b s =>
        refine .snoc (ih (by simp) fun c hc => hall c ?_) ((digitIn?_plainDigit hb).1 hd)
        rw [List.map_append]
        exact List.mem_append_left _ hc
  · intro h
    induction h with
    | one hd =>
      have hd := (digitIn?_plainDigit hb).2 hd
      exact wholeDigits?_eq_some.2 ⟨by simp, by simp [hd], by simp [valueIn, hd]⟩
    | snoc hs hd ih =>
      have hd := (digitIn?_plainDigit hb).2 hd
      obtain ⟨hne, hall, hn⟩ := wholeDigits?_eq_some.1 ih
      refine wholeDigits?_eq_some.2 ⟨by simp, ?_, ?_⟩
      · intro c hc
        rw [List.map_append, List.mem_append] at hc
        cases hc with
        | inl hc => exact hall c hc
        | inr hc =>
          rw [List.map_singleton, List.mem_singleton] at hc
          simp [hc, hd]
      · rw [List.map_append, List.map_singleton, valueIn_snoc, hn, hd, Option.getD_some]

theorem plainDigit_of_digitValue?_none (h : digitValue? c = none) : plainDigit c = c := by simp [plainDigit, h]

theorem isNumberBlank_plainDigit (h : isNumberBlank (plainDigit c)) : isNumberBlank c := by
  cases hc : digitValue? c with
  | none => rwa [plainDigit_of_digitValue?_none hc] at h
  | some d =>
    have hdigits : ∀ d < 10, isNumberBlank (Nat.digitChar d) = false := by decide
    rw [plainDigit, hc] at h
    exact absurd h (by simp [hdigits d (digitValue?_zero hc).1])

theorem Spells.last (h : Spells base s n) : ∃ t c d, s = t ++ [c] ∧ IsDigit base c d := by
  cases h with
  | one hd => exact ⟨[], _, _, rfl, hd⟩
  | snoc hs hd => exact ⟨_, _, _, rfl, hd⟩

theorem Spells.isDigit (h : Spells base s n) : ∀ c ∈ s, ∃ d, IsDigit base c d := by
  induction h with
  | one hd => simpa using ⟨_, hd⟩
  | snoc hs hd ih =>
    intro c hc
    cases List.mem_append.1 hc with
    | inl hc => exact ih c hc
    | inr hc => exact List.mem_singleton.1 hc ▸ ⟨_, hd⟩

theorem IsDigit.not_blank (h : IsDigit base c d) (hb : base ≤ 16) : isNumberBlank c = false := by
  cases hc : isNumberBlank c with
  | false => rfl
  | true =>
    cases h with
    | decimal h => cases (digitValue?_of_isNumberBlank hc).symm.trans h
    | letter h h10 hd =>
      simp only [isNumberBlank, isBlank, Bool.and_eq_true, Bool.or_eq_true, decide_eq_true_eq, beq_iff_eq,
        Bool.not_eq_true', Bool.and_eq_false_iff, decide_eq_false_iff_not] at hc
      omega

theorem Spells.dropTail (h : Spells base s n) (hb : base ≤ 16) {blanks : List Char}
    (hblanks : ∀ c ∈ blanks, isNumberBlank c) :
    Text.dropTail isNumberBlank ((s ++ blanks).map plainDigit) = s.map plainDigit := by
  have hplain : ∀ c ∈ (blanks.map plainDigit).reverse, isNumberBlank c := by
    intro c hc
    obtain ⟨b, hb, rfl⟩ := List.mem_map.1 (List.mem_reverse.1 hc)
    rw [plainDigit_of_digitValue?_none (digitValue?_of_isNumberBlank (hblanks b hb))]
    exact hblanks b hb
  obtain ⟨t, c, d, rfl, hd⟩ := h.last
  have hlast : ¬isNumberBlank (plainDigit c) :=
    fun hc => Bool.false_ne_true ((hd.not_blank hb).symm.trans (isNumberBlank_plainDigit hc))
  rw [Text.dropTail, List.map_append, List.reverse_append, List.dropWhile_append_of_pos hplain, List.map_append]
  exact List.rdropWhile_concat_neg _ _ _ hlast

theorem wholeDigits?_dropTail (hb : base ≤ 16) :
    wholeDigits? base (dropTail isNumberBlank (s.map plainDigit)) = some n ↔
      ∃ digits blanks, s = digits ++ blanks ∧ Spells base digits n ∧ ∀ c ∈ blanks, isNumberBlank c := by
  constructor
  · intro h
    have hsplit := List.rdropWhile_append_rtakeWhile (p := isNumberBlank) (l := s.map plainDigit)
    obtain ⟨digits, blanks, rfl, hdigits, hblanks⟩ := List.map_eq_append_iff.1 hsplit.symm
    have hspells : wholeDigits? base (digits.map plainDigit) = some n := hdigits.symm ▸ h
    refine ⟨digits, blanks, rfl, (wholeDigits?_plainDigit hb).1 hspells, fun c hc => ?_⟩
    exact isNumberBlank_plainDigit (List.mem_rtakeWhile_imp (hblanks ▸ List.mem_map_of_mem hc))
  · rintro ⟨digits, blanks, rfl, hdigits, hblanks⟩
    rw [hdigits.dropTail hb hblanks]
    exact (wholeDigits?_plainDigit hb).2 hdigits

theorem marks_spec : ∀ m ∈ marks, m.2 ≤ 16 ∧ isDecimal m.1 = false := by decide

theorem announcedBase?_eq_some {r : List Char} :
    announcedBase? s = some (base, r) ↔
      ∃ mark, (mark, base) ∈ marks ∧ s = '0' :: mark :: r := by
  constructor
  · intro h
    unfold announcedBase? at h
    split at h <;> cases h <;> exact ⟨_, by simp [marks], rfl⟩
  · rintro ⟨mark, hmark, rfl⟩
    simp only [marks, List.mem_cons, Prod.mk.injEq, List.not_mem_nil, or_false] at hmark
    obtain ⟨rfl, rfl⟩ | ⟨rfl, rfl⟩ | ⟨rfl, rfl⟩ := hmark <;> rfl

theorem isOldOctal_iff : isOldOctal s ↔ s.head? = some '0' ∧ 1 < s.length ∧ ∀ c ∈ s, isDecimal c := by
  unfold isOldOctal
  split
  · simp
  · rename_i h
    cases s with
    | nil => simp
    | cons a s =>
      cases s with
      | nil => simp
      | cons b s =>
        have := h b s
        simp_all

theorem IsDigit.decimal_of_le (h : IsDigit base c d) (hb : base ≤ 10) : isDecimal c := by
  cases h with
  | decimal h => simp [isDecimal, h]
  | letter h h10 hd => omega

theorem based?_eq_some : based? s = some (some n) ↔ WholeLiteral s n := by
  constructor
  · intro h
    unfold based? at h
    split at h
    · rename_i base r hr
      obtain ⟨mark, hmark, rfl⟩ := announcedBase?_eq_some.1 hr
      obtain ⟨digits, blanks, rfl, hdigits, hblanks⟩ := (wholeDigits?_dropTail (marks_spec _ hmark).1).1 (Option.some.inj h)
      exact .announced hmark hdigits hblanks
    · split at h
      · rename_i hold
        obtain ⟨hzero, hlong, -⟩ := isOldOctal_iff.1 hold
        exact .oldOctal hzero hlong ((wholeDigits?_plainDigit (by decide)).1 (Option.some.inj h))
      · cases h
  · intro h
    unfold based?
    cases h with
    | announced hmark hdigits hblanks =>
      rw [announcedBase?_eq_some.2 ⟨_, hmark, rfl⟩]
      exact congrArg some ((wholeDigits?_dropTail (marks_spec _ hmark).1).2 ⟨_, _, rfl, hdigits, hblanks⟩)
    | oldOctal hzero hlong hdigits =>
      have hdecimal : ∀ c ∈ s, isDecimal c := fun c hc =>
        have ⟨d, hd⟩ := hdigits.isDigit c hc
        hd.decimal_of_le (by decide)
      have hnone : announcedBase? s = none := by
        cases hs : announcedBase? s with
        | none => rfl
        | some w =>
          obtain ⟨mark, hmark, rfl⟩ := announcedBase?_eq_some.1 hs
          exact absurd (hdecimal mark (by simp)) (by simp [(marks_spec _ hmark).2])
      rw [hnone, if_pos (isOldOctal_iff.2 ⟨hzero, hlong, hdecimal⟩)]
      exact congrArg some ((wholeDigits?_plainDigit (by decide)).2 hdigits)

theorem toDouble_eq : toDouble = fun n => match Binary64.ofNat n with
    | .infinite _ => .error .integerTooLarge
    | x => .ok x := by
  delta toDouble
  -- with the rounding itself in its place, the kernel would compute with units of `n`
  generalize Binary64.ofNat = round
  funext n
  cases round n <;> rfl

theorem toDouble_error {e : Failure} :
    toDouble n = .error e ↔ Binary64.beyond ≤ n ∧ e = .integerTooLarge := by
  have hsign := @Binary64.ofNat_infinite n
  rewrite [← Binary64.ofNat_infinite_iff, congrFun toDouble_eq n]
  generalize Binary64.ofNat n = x at hsign ⊢
  cases x with
  | infinite neg => simp [hsign rfl, eq_comm]
  | nan => simp
  | finite neg u => simp

/-- The one way in which the reading of a literal fails. -/
theorem literal?_error {e : Failure} :
    literal? s = .error e ↔
      (∃ n, WholeLiteral (bare s) n ∧ Binary64.beyond ≤ n) ∧ e = .integerTooLarge := by
  simp only [← based?_eq_some]
  unfold literal?
  dsimp only
  split
  · rename_i n hn
    cases hd : toDouble n with
    | error e' =>
      obtain ⟨hle, rfl⟩ := toDouble_error.1 hd
      simp [hn, hle, Except.map, eq_comm]
    | ok v =>
      have hle : ¬Binary64.beyond ≤ n := fun hle => by
        cases hd.symm.trans (toDouble_error.2 ⟨hle, rfl⟩)
      simp [hn, hle, Except.map]
  · simp_all
  · simp_all

end CodeAudit.Number
