import CodeAudit.Proofs.Review.LineMapping
import CodeAudit.Review.Outcome

/-!
Which issues become findings. An integer is looked for in the line an issue refers to, and the issue is
passed over exactly if that value holds none for a reason other than its absence: a number without an
integer part, or a text with more digits at its front than are read as one integer.
-/
set_option autoImplicit false

namespace CodeAudit

namespace Text

theorem not_isBlank_of_isDecimal {c : Char} (h : isDecimal c) : isBlank c = false := by
  have hz : ∀ z ∈ Table.zeros, z = 48 ∨ 0xa0 < z ∧ z + 10 ≤ 0x1680 ∨
      0x1680 < z ∧ z + 10 ≤ 0x2000 ∨ 0x3000 < z := by decide
  have hd : ∃ z ∈ Table.zeros, z ≤ c.toNat ∧ c.toNat < z + 10 := by
    simp only [isDecimal, digitValue?] at h
    split at h
    · rename_i hc
      simp only [Char.isDigit, Bool.and_eq_true, decide_eq_true_eq, UInt32.le_iff_toNat_le] at hc
      exact ⟨48, by decide, hc.1, Nat.lt_succ_of_le hc.2⟩
    · rw [Option.isSome_map, List.find?_isSome] at h
      simpa using h
  obtain ⟨z, hm, h₁, h₂⟩ := hd
  have := hz z hm
  simp only [isBlank, Bool.or_eq_false_iff, Bool.and_eq_false_iff, decide_eq_false_iff_not,
    beq_eq_false_iff_ne]
  omega

end Text

namespace Issue

/-- Behind blanks and a minus the text begins with more digits than an integer may have. -/
def LongNumeral (s : List Char) : Prop :=
  ∃ blanks sign ds rest, s = blanks ++ (sign ++ (ds ++ rest)) ∧ (∀ c ∈ blanks, Text.isBlank c) ∧
    (sign = [] ∨ sign = ['-']) ∧ (∀ c ∈ ds, Text.isDecimal c) ∧ Json.maxDigits < ds.length

def unsigned (s : List Char) : List Char :=
  match s.dropWhile Text.isBlank with
  | '-' :: r => r
  | r => r

theorem leadingInteger_eq (s : List Char) : ∃ neg, leadingInteger s =
    if ((unsigned s).takeWhile Text.isDecimal).isEmpty then .ok none
    else if Json.maxDigits < ((unsigned s).takeWhile Text.isDecimal).length then .error .tooManyDigits
    else .ok (some (Binary64.signed neg (Text.valueIn 10
      (((unsigned s).takeWhile Text.isDecimal).map Text.plainDigit)))) := by
  unfold leadingInteger unsigned
  cases s.dropWhile Text.isBlank with
  | nil => exact ⟨false, rfl⟩
  | cons c r =>
    by_cases hc : c = '-'
    · subst hc
      exact ⟨true, rfl⟩
    · exact ⟨false, by simp [hc]⟩

theorem leadingInteger_ok_iff {s : List Char} : (∃ i, leadingInteger s = .ok i) ↔
    ((unsigned s).takeWhile Text.isDecimal).length ≤ Json.maxDigits := by
  obtain ⟨neg, h⟩ := leadingInteger_eq s
  rw [h]
  split
  · rename_i he
    simp [List.isEmpty_iff.1 he]
  · split
    · simpa using ‹_›
    · simpa using Nat.le_of_not_lt ‹_›

theorem longNumeral_iff {s : List Char} :
    LongNumeral s ↔ Json.maxDigits < ((unsigned s).takeWhile Text.isDecimal).length := by
  constructor
  · rintro ⟨blanks, sign, ds, rest, rfl, hb, hs, hd, hl⟩
    have hu : unsigned (blanks ++ (sign ++ (ds ++ rest))) = ds ++ rest := by
      obtain ⟨d, ds, rfl⟩ : ∃ d ds', ds = d :: ds' := List.exists_cons_of_ne_nil (by
        rintro rfl
        simp at hl)
      have hd : Text.isDecimal d := hd d (by simp)
      have hm : d ≠ '-' := by
        rintro rfl
        revert hd
        decide
      rw [unsigned, List.dropWhile_append_of_pos hb]
      obtain rfl | rfl := hs
      · simp [Text.not_isBlank_of_isDecimal hd, hm]
      · rfl
    rw [hu, List.takeWhile_append_of_pos hd, List.length_append]
    omega
  · intro h
    have he := (List.takeWhile_append_dropWhile (p := Text.isBlank) (l := s)).symm
    have hr := (List.takeWhile_append_dropWhile (p := Text.isDecimal) (l := unsigned s)).symm
    have hu : ∃ sign, (sign = [] ∨ sign = ['-']) ∧ s.dropWhile Text.isBlank = sign ++ unsigned s := by
      unfold unsigned
      split
      · exact ⟨['-'], .inr rfl, ‹_›⟩
      · exact ⟨[], .inl rfl, rfl⟩
    obtain ⟨sign, hs, hu⟩ := hu
    rw [hu, hr] at he
    exact ⟨_, sign, _, _, he, fun c hc => List.mem_takeWhile_imp hc, hs,
      fun c hc => List.mem_takeWhile_imp hc, h⟩

instance (s : List Char) : Decidable (LongNumeral s) :=
  decidable_of_iff' _ longNumeral_iff

/-- An integer may be looked for in the value. -/
def Countable : Json → Prop
  | .float (.infinite _) | .float .nan => False
  | .string t => ¬LongNumeral t.text.toList
  | _ => True

instance : DecidablePred Countable := fun v =>
  match v with
  | .float (.infinite _) | .float .nan => .isFalse id
  | .float (.finite _ _) => .isTrue trivial
  | .string t => inferInstanceAs (Decidable (¬LongNumeral t.text.toList))
  | .null | .bool _ | .int _ | .array _ | .object _ => .isTrue trivial

theorem countable_iff {v : Json} : Countable v ↔ ∃ i, toInteger v = .ok i := by
  cases v with
  | float x => cases x <;> simp [Countable, toInteger]
  | string t => simp [Countable, toInteger, leadingInteger_ok_iff, longNumeral_iff]
  | _ => simp [Countable, toInteger]

/-- The lines that a reference means can be told: its start and its end if it is an object, else itself. -/
def Readable : Json → Prop
  | .object fs => Countable ((Fields.get? "start" fs).getD .null) ∧
      Countable ((Fields.get? "end" fs).getD .null)
  | v => Countable v

instance : DecidablePred Readable := fun v =>
  match v with
  | .object fs => inferInstanceAs (Decidable (Countable ((Fields.get? "start" fs).getD .null) ∧
      Countable ((Fields.get? "end" fs).getD .null)))
  | .null => inferInstanceAs (Decidable (Countable .null))
  | .bool b => inferInstanceAs (Decidable (Countable (.bool b)))
  | .int i => inferInstanceAs (Decidable (Countable (.int i)))
  | .float x => inferInstanceAs (Decidable (Countable (.float x)))
  | .string t => inferInstanceAs (Decidable (Countable (.string t)))
  | .array xs => inferInstanceAs (Decidable (Countable (.array xs)))

theorem readable_iff {v : Json} : Readable v ↔ ∃ p, ends v = .ok p := by
  have hone (v : Json) : Countable v ↔
      ∃ p, (do let line ← toInteger v; return (line, line) : Except Failure _) = .ok p := by
    rw [countable_iff]
    cases toInteger v <;> simp [bind, Except.bind, pure, Except.pure]
  cases v with
  | object fs =>
    simp only [Readable, countable_iff, ends]
    cases toInteger ((Fields.get? "start" fs).getD .null) <;>
      cases toInteger ((Fields.get? "end" fs).getD .null) <;>
      simp [bind, Except.bind, pure, Except.pure]
  | null => exact hone .null
  | bool b => exact hone (.bool b)
  | int i => exact hone (.int i)
  | float x => exact hone (.float x)
  | string t => exact hone (.string t)
  | array xs => exact hone (.array xs)

variable {c : Chunk} {path : String}

theorem one_le_lineOf_iff (relative : Option Int) : 1 ≤ lineOf c relative ↔ 1 ≤ c.last := by
  unfold lineOf
  dsimp only
  omega

theorem lineRange_ok_iff {v : Json} :
    (∃ r, lineRange c v = .ok r) ↔ Readable v ∧ 1 ≤ c.last := by
  rw [readable_iff, lineRange_eq]
  cases ends v with
  | error e => simp [Except.bind]
  | ok p =>
    have hl := one_le_lineOf_iff (c := c) p.1
    simp only [Except.bind, LineRange.of, hl, Int.le_max_left, and_true]
    by_cases h : 1 ≤ c.last <;> simp [h]

/-- An issue becomes a finding if its lines can be told, and the piece it was found in is one of lines
counted from 1. -/
theorem toFinding_ok_iff {raw : Fields} :
    (∃ f, toFinding raw c path = .ok f) ↔ Readable (reference raw) ∧ 1 ≤ c.last := by
  rw [← lineRange_ok_iff, toFinding]
  cases lineRange c (reference raw) <;> simp [bind, Except.bind, pure, Except.pure]

end Issue

namespace Outcome

variable {c : Chunk} {path : String}

end Outcome
end CodeAudit
