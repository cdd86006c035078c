import CodeAudit.Json.Writer
import CodeAudit.Proofs.Json.Quoted
import CodeAudit.Proofs.Json.Numeral

set_option autoImplicit false

namespace CodeAudit

/-- Each half is one of a pair, and the two of one pair do not stand side by side. -/
def Letter.Apart : List Letter → Prop
  | [] => True
  | .char _ :: r => Apart r
  | .half u :: r => (Json.Reader.isHigh u ∨ Json.Reader.isLow u) ∧
      (Json.Reader.isHigh u → ∀ v r', r = .half v :: r' → Json.Reader.isLow v = false) ∧ Apart r

namespace LooseText

def letters : LooseText → List Letter
  | .whole s => s.toList.map .char
  | .broken ls => ls

def Exact (t : LooseText) : Prop := Letter.Apart t.letters ∧ ofLetters t.letters = t

theorem apart_map (cs : List Char) : Letter.Apart (cs.map .char) := by
  induction cs with
  | nil => trivial
  | cons c cs ih => exact ih

theorem ofLetters_map (cs : List Char) : ofLetters (cs.map .char) = .whole (String.ofList cs) := by
  have hm : (cs.map .char).mapM Letter.char? = some cs := by
    induction cs with
    | nil => rfl
    | cons c cs ih => simp [Letter.char?, ih]
  rw [ofLetters, hm]

@[simp] theorem exact_whole (s : String) : Exact (.whole s) :=
  ⟨apart_map s.toList, by rw [letters, ofLetters_map, String.ofList_toList]⟩

end LooseText

namespace Json

mutual

def Exact : Json → Prop
  | .null | .bool _ => True
  | .int i => (Nat.toDigits 10 i.natAbs).length ≤ maxDigits
  | .float _ => False
  | .string t => t.Exact
  | .array xs => ExactItems xs
  | .object fs => (fs.map Prod.fst).Nodup ∧ ExactFields fs

def ExactItems : List Json → Prop
  | [] => True
  | x :: xs => Exact x ∧ ExactItems xs

def ExactFields : List (LooseText × Json) → Prop
  | [] => True
  | (n, v) :: fs => n.Exact ∧ Exact v ∧ ExactFields fs

end

theorem exactItems_iff {xs : List Json} : ExactItems xs ↔ ∀ x ∈ xs, Exact x := by
  induction xs with
  | nil => simp [ExactItems]
  | cons x xs ih => simp [ExactItems, ih]

namespace Reader

theorem hexValue?_digitChar {d : Nat} (h : d < 16) : hexValue? d.digitChar = some d := by
  have hd : ∀ d, d < 16 → hexValue? d.digitChar = some d := by decide
  exact hd d h

theorem hex_four {u : Nat} (h : u < 0x10000) :
    Text.Quoted.hex 4 u = [(u / 4096).digitChar, (u / 256 % 16).digitChar, (u / 16 % 16).digitChar,
      (u % 16).digitChar] := by
  have hs {n : Nat} (hn : n < 16) : Nat.toDigits 16 n = [n.digitChar] :=
    Nat.toDigits_of_lt_base hn
  have hl {n m : Nat} (hn : 16 ≤ n) (hm : n / 16 = m) :
      Nat.toDigits 16 n = Nat.toDigits 16 m ++ [(n % 16).digitChar] :=
    hm ▸ Nat.toDigits_of_base_le (by decide) hn
  by_cases h₁ : u < 16
  · have z₁ : u / 4096 = 0 := by omega
    have z₂ : u / 256 = 0 := by omega
    have z₃ : u / 16 = 0 := by omega
    simp [Text.Quoted.hex, hs h₁, z₁, z₂, z₃, Nat.mod_eq_of_lt h₁, List.replicate]
  have e₁ := hl (Nat.le_of_not_lt h₁) rfl
  by_cases h₂ : u / 16 < 16
  · have z₁ : u / 4096 = 0 := by omega
    have z₂ : u / 256 = 0 := by omega
    simp [Text.Quoted.hex, e₁, hs h₂, z₁, z₂, Nat.mod_eq_of_lt h₂, List.replicate]
  have e₂ := hl (m := u / 256) (Nat.le_of_not_lt h₂) (by omega)
  by_cases h₃ : u / 256 < 16
  · have z₁ : u / 4096 = 0 := by omega
    simp [Text.Quoted.hex, e₁, e₂, hs h₃, z₁, Nat.mod_eq_of_lt h₃]
  have e₃ := hl (m := u / 4096) (Nat.le_of_not_lt h₃) (by omega)
  simp [Text.Quoted.hex, e₁, e₂, e₃, hs (n := u / 4096) (by omega)]

theorem unit?_hex {u : Nat} (h : u < 0x10000) (k : List Char) :
    unit? (Text.Quoted.hex 4 u ++ k) = some (u, k) := by
  have h₁ := hexValue?_digitChar (d := u / 4096) (by omega)
  have h₂ := hexValue?_digitChar (d := u / 256 % 16) (by omega)
  have h₃ := hexValue?_digitChar (d := u / 16 % 16) (by omega)
  have h₄ := hexValue?_digitChar (d := u % 16) (by omega)
  have hu : ((u / 4096 * 16 + u / 256 % 16) * 16 + u / 16 % 16) * 16 + u % 16 = u := by omega
  rw [hex_four h]
  simp [unit?, h₁, h₂, h₃, h₄, hu]

def NotLow (r : List Char) : Prop :=
  ∀ r', r = '\\' :: 'u' :: r' → ∃ v r'', unit? r' = some (v, r'') ∧ isLow v = false

theorem escaped?_half {u : Nat} {r : List Char} (hu : isHigh u ∨ isLow u) (hr : isHigh u → NotLow r) :
    escaped? (Text.Quoted.hex 4 u ++ r) = some (.half u, r) := by
  have hb : u < 0x10000 := by
    simp only [isHigh, isLow, Bool.and_eq_true, decide_eq_true_eq] at hu
    omega
  have hx := unit?_hex hb r
  cases hh : isHigh u with
  | true =>
    by_cases hs : ∃ r', r = '\\' :: 'u' :: r'
    · obtain ⟨r', rfl⟩ := hs
      obtain ⟨v, r'', hv, hl⟩ := hr hh r' rfl
      exact escaped?_iff.2 (.high hx hh hv hl)
    · push Not at hs
      exact escaped?_iff.2 (.alone hx hh hs)
  | false => exact escaped?_iff.2 (.low hx hh (by simpa [hh] using hu))

theorem char_not_surrogate (c : Char) : isHigh c.toNat = false ∧ isLow c.toNat = false := by
  have hc := c.valid
  simp only [UInt32.isValidChar, Nat.isValidChar] at hc
  change c.toNat < 0xd800 ∨ 0xdfff < c.toNat ∧ c.toNat < 0x110000 at hc
  simp only [isHigh, isLow, Bool.and_eq_false_iff, decide_eq_false_iff_not]
  omega

theorem piece?_unit {s r : List Char} {l : Letter} (h : escaped? s = some (l, r)) :
    piece? ('\\' :: 'u' :: s) = some (some l, r) := piece?_iff.2 (.unit h)

theorem piece?_pair {n : Nat} (h : n < 0x100000) (r : List Char) :
    piece? (writeUnit (0xd800 + n / 1024) ++ (writeUnit (0xdc00 + n % 1024) ++ r)) =
      some (some (.char (Char.ofNat (n + 0x10000))), r) := by
  have hx := unit?_hex (u := 0xd800 + n / 1024) (by omega) (writeUnit (0xdc00 + n % 1024) ++ r)
  have hy := unit?_hex (u := 0xdc00 + n % 1024) (by omega) r
  have hh : isHigh (0xd800 + n / 1024) := by
    simp only [isHigh, Bool.and_eq_true, decide_eq_true_eq]
    omega
  have hl : isLow (0xdc00 + n % 1024) := by
    simp only [isLow, Bool.and_eq_true, decide_eq_true_eq]
    omega
  have hn : (0xd800 + n / 1024 - 0xd800) * 1024 + (0xdc00 + n % 1024 - 0xdc00) + 0x10000 =
      n + 0x10000 := by omega
  rw [← hn]
  exact piece?_unit (escaped?_iff.2 (.pair hx hh hy hl))

/-- The forms of a character inside a literal. -/
inductive Spelled (c : Char) : List Char → Prop where
  | plain (hq : c ≠ '"') (hb : c ≠ '\\') (hc : 0x20 ≤ c.toNat) : Spelled c [c]
  | short {d : Char} (hd : d ≠ 'u') (h : simpleEscape? d = some c) : Spelled c ['\\', d]
  | unit (hc : c.toNat < 0x10000) : Spelled c (writeUnit c.toNat)
  | pair {n : Nat} (hn : n < 0x100000) (hc : Char.ofNat (n + 0x10000) = c) :
      Spelled c (writeUnit (0xd800 + n / 1024) ++ writeUnit (0xdc00 + n % 1024))

theorem spelled_writeChar (c : Char) : Spelled c (writeChar c) := by
  unfold writeChar
  split
  · rename_i h
    obtain rfl | rfl := h <;> exact .short (by decide) rfl
  split
  · rename_i h
    subst h
    exact .short (by decide) rfl
  split
  · rename_i h
    subst h
    exact .short (by decide) rfl
  split
  · rename_i h
    subst h
    exact .short (by decide) rfl
  split
  · rename_i h
    subst h
    exact .short (by decide) rfl
  split
  · rename_i h
    subst h
    exact .short (by decide) rfl
  split
  · rename_i hq _ _ _ _ _ h
    push Not at hq
    exact .plain hq.1 hq.2 h.1
  split
  · exact .unit ‹_›
  · have hc := c.valid
    simp only [UInt32.isValidChar, Nat.isValidChar] at hc
    change c.toNat < 0xd800 ∨ 0xdfff < c.toNat ∧ c.toNat < 0x110000 at hc
    have hn : c.toNat - 0x10000 + 0x10000 = c.toNat := by omega
    exact .pair (by omega) (by rw [hn, Char.ofNat_toNat])

theorem Spelled.piece? {c : Char} {w : List Char} (h : Spelled c w) (r : List Char) :
    piece? (w ++ r) = some (some (.char c), r) := by
  cases h with
  | plain hq hb hc => exact piece?_iff.2 (.char r hq hb (by omega))
  | short hd h => exact piece?_iff.2 (.escape r hd h)
  | unit hc =>
    obtain ⟨hh, hl⟩ := char_not_surrogate c
    have he := escaped?_iff.2 (.char (unit?_hex hc r) hh hl)
    simpa [writeUnit] using piece?_unit he
  | pair hn hc =>
    rw [List.append_assoc, ← hc]
    exact piece?_pair hn r

theorem piece?_writeChar (c : Char) (r : List Char) :
    piece? (writeChar c ++ r) = some (some (.char c), r) := (spelled_writeChar c).piece? r

theorem unit?_of_escaped? {s r : List Char} {l : Letter} (h : escaped? s = some (l, r))
    (hl : ∀ u, l ≠ .half u) : ∃ u r', unit? s = some (u, r') ∧ isLow u = false := by
  cases escaped?_iff.1 h with
  | pair hu hh hv _ =>
    refine ⟨_, _, hu, ?_⟩
    simp only [isHigh, isLow, Bool.and_eq_true, decide_eq_true_eq, Bool.and_eq_false_iff,
      decide_eq_false_iff_not] at hh ⊢
    omega
  | high | alone | low => exact absurd rfl (hl _)
  | char hu hh hv => exact ⟨_, _, hu, hv⟩

theorem notLow_writeChar (c : Char) (r : List Char) : NotLow (writeChar c ++ r) := by
  intro r' hr
  have hp := piece?_writeChar c r
  rw [hr] at hp
  cases piece?_iff.1 hp with
  | unit h => exact unit?_of_escaped? h (by simp)
  | escape r hc h => exact absurd rfl hc
  | char r hq hb hc => exact absurd rfl hb

/-- Written letters are read back. The rest of a literal never begins with the low half that a high one
before it would wait for. -/
theorem piece?_writeLetter {l : Letter} {ls : List Letter} (h : Letter.Apart (l :: ls))
    (k : List Char) :
    piece? (writeLetter l ++ (ls.flatMap writeLetter ++ '"' :: k)) =
      some (some l, ls.flatMap writeLetter ++ '"' :: k) := by
  cases l with
  | char c => exact piece?_writeChar c _
  | half u =>
    obtain ⟨hu, hn, ha⟩ := h
    refine piece?_unit (escaped?_half hu fun hh => ?_)
    cases ls with
    | nil => simp [NotLow]
    | cons l ls =>
      cases l with
      | char c =>
        simp only [List.flatMap_cons, List.append_assoc]
        exact notLow_writeChar c _
      | half v =>
        intro r' hr
        have hv := ha.1
        simp only [writeLetter, writeUnit, List.flatMap_cons, List.cons_append, List.cons.injEq,
          true_and, List.append_assoc] at hr
        have hb : v < 0x10000 := by
          simp only [isHigh, isLow, Bool.and_eq_true, decide_eq_true_eq] at hv
          omega
        exact ⟨v, _, hr ▸ unit?_hex hb _, hn hh v ls rfl⟩

theorem string?_write {ls : List Letter} (h : Letter.Apart ls) {fuel : Nat}
    (hf : ls.length < fuel) (k : List Char) :
    string? fuel (ls.flatMap writeLetter ++ '"' :: k) = some (ls, k) := by
  induction ls generalizing fuel with
  | nil =>
    obtain ⟨fuel, rfl⟩ : ∃ n, fuel = n + 1 := ⟨fuel - 1, by simp at hf; omega⟩
    rfl
  | cons l ls ih =>
    simp only [List.length_cons] at hf
    obtain ⟨fuel, rfl⟩ : ∃ n, fuel = n + 1 := ⟨fuel - 1, by omega⟩
    have ha : Letter.Apart ls := by
      cases l with
      | char c => exact h
      | half u => exact h.2.2
    rw [List.flatMap_cons, List.append_assoc, string?, piece?_writeLetter h k]
    simp [ih ha (by omega : ls.length < fuel)]

theorem writeString_eq (t : LooseText) :
    writeString t = '"' :: t.letters.flatMap writeLetter ++ ['"'] := by
  cases t with
  | whole s => simp [writeString, LooseText.letters, List.flatMap_map, writeLetter]
  | broken ls => rfl

theorem writeLetter_ne_nil (l : Letter) : writeLetter l ≠ [] := by
  cases l with
  | char c =>
    intro h
    have hp := piece?_writeChar c []
    rw [show writeChar c = [] from h] at hp
    cases hp
  | half u => simp [writeLetter, writeUnit]

theorem readString_write {t : LooseText} (h : t.Exact) (k : List Char) :
    readString (t.letters.flatMap writeLetter ++ '"' :: k) = .ok (t, k) := by
  have hl (ls : List Letter) : ls.length ≤ (ls.flatMap writeLetter).length := by
    induction ls with
    | nil => simp
    | cons l ls ih =>
      have := List.length_pos_iff.2 (writeLetter_ne_nil l)
      simp only [List.flatMap_cons, List.length_append, List.length_cons]
      omega
  refine readString_eq_ok.2 ⟨t.letters, string?_write h.1 ?_ k, h.2.symm⟩
  have := hl t.letters
  simp only [List.length_append]
  omega

theorem toDigits_numeral (n : Nat) : Numeral (Nat.toDigits 10 n) := by
  have hd : ∀ c ∈ Nat.toDigits 10 n, c.isDigit :=
    fun c => Nat.isDigit_of_mem_toDigits (by decide) (by decide)
  have hz (m : Nat) (hm : m ≠ 0) : (Nat.toDigits 10 m).head? ≠ some '0' := by
    induction m using Nat.strongRecOn with
    | ind m ih =>
      by_cases hs : m < 10
      · simpa [Nat.toDigits_of_lt_base hs] using hm
      · have hi := ih (m / 10) (by omega) (by omega)
        rw [Nat.toDigits_of_base_le (by decide) (Nat.le_of_not_lt hs)]
        cases hq : Nat.toDigits 10 (m / 10) with
        | nil => exact absurd hq Nat.toDigits_ne_nil
        | cons c ds => simpa [hq] using hi
  by_cases h : n = 0
  · subst h
    exact .inl rfl
  · exact .inr ⟨hz n h, Nat.toDigits_ne_nil, hd⟩

theorem valueIn_toDigits (n : Nat) : Text.valueIn 10 (Nat.toDigits 10 n) = n := by
  have hc {c : Char} (h : c.isDigit) :
      (Text.valueIn.digitIn? 10 c).getD 0 = c.toNat - '0'.toNat := by
    have hl : c.toNat - 48 < 10 := by
      simp only [Char.isDigit, ge_iff_le, UInt32.le_iff_toNat_le, Bool.and_eq_true,
        decide_eq_true_eq] at h
      have h₉ : '9'.val.toNat = 57 := rfl
      have ht : c.toNat = c.val.toNat := rfl
      omega
    simp [Text.valueIn.digitIn?, h, hl]
  have hf (ds : List Char) (hd : ∀ c ∈ ds, c.isDigit) (m : Nat) :
      ds.foldl (fun n c => n * 10 + (Text.valueIn.digitIn? 10 c).getD 0) m =
        Nat.ofDigitChars 10 ds m := by
    induction ds generalizing m with
    | nil => simp
    | cons c ds ih =>
      rw [List.foldl_cons, Nat.ofDigitChars_cons, hc (hd c (by simp)), Nat.mul_comm m 10]
      exact ih (fun d h => hd d (by simp [h])) _
  have hd : ∀ c ∈ Nat.toDigits 10 n, c.isDigit :=
    fun c => Nat.isDigit_of_mem_toDigits (by decide) (by decide)
  exact (hf _ hd 0).trans Nat.ofDigitChars_ten_toDigits

theorem toList_int (i : Int) :
    (toString i).toList = (if i < 0 then ['-'] else []) ++ Nat.toDigits 10 i.natAbs := by
  cases i with
  | ofNat n => simp [ToString.toString, Int.repr]
  | negSucc n => simp [ToString.toString, Int.repr, String.toList_append, Int.negSucc_lt_zero]

theorem readNumber_numeral (neg : Bool) {ds : List Char} (hd : Numeral ds)
    (hl : ds.length ≤ maxDigits) {k : List Char} (hk : Ends k) :
    readNumber neg (ds ++ k) = .ok (.int (Binary64.signed neg (Text.valueIn 10 ds)), k) := by
  have hw := whole?_numeral hd (r := k) fun c hc => (hk c hc).1
  have hf := fraction_of_head (r := k) fun h => (hk '.' (by simp [h])).2.1 rfl
  exact readNumber_eq_ok.2 (.int hw hf (exponent?_of_ends hk) hl)

theorem readPlain_sign {neg : Bool} {s r : List Char} {v : Json} (h : readNumber neg s = .ok (v, r)) :
    readPlain ((if neg then ['-'] else []) ++ s) = .ok (v, r) := by
  obtain ⟨c, t, rfl, hc⟩ := readNumber_head h
  have hm : c ≠ '-' := by
    rintro rfl
    cases hc
  cases neg with
  | true => simpa [readPlain, word?_of_minus hc] using h
  | false => simpa [readPlain, word?_of_digit hc, hm] using h

theorem readPlain_numeral (neg : Bool) {ds : List Char} (hd : Numeral ds)
    (hl : ds.length ≤ maxDigits) {k : List Char} (hk : Ends k) :
    readPlain ((if neg then ['-'] else []) ++ (ds ++ k)) =
      .ok (.int (Binary64.signed neg (Text.valueIn 10 ds)), k) :=
  readPlain_sign (readNumber_numeral neg hd hl hk)

theorem signed_natAbs (i : Int) : Binary64.signed (i < 0) i.natAbs = i := by
  unfold Binary64.signed
  split
  · rename_i h
    have := of_decide_eq_true h
    omega
  · rename_i h
    have := of_decide_eq_false (Bool.eq_false_iff.2 h)
    omega

theorem readPlain_int {i : Int} (hi : (Nat.toDigits 10 i.natAbs).length ≤ maxDigits)
    {k : List Char} (hk : Ends k) : readPlain ((toString i).toList ++ k) = .ok (.int i, k) := by
  have hr := readPlain_numeral (i < 0) (toDigits_numeral i.natAbs) hi hk
  rw [valueIn_toDigits, signed_natAbs] at hr
  rw [toList_int, List.append_assoc]
  simpa using hr

end Reader
end Json
end CodeAudit
