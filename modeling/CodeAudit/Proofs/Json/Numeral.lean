import CodeAudit.Json.Reader
import Mathlib.Data.List.TakeDrop
import Mathlib.Data.List.TakeWhile

set_option autoImplicit false

namespace CodeAudit.Json.Reader

def Ends (r : List Char) : Prop :=
  ∀ c ∈ r.head?, c.isDigit = false ∧ c ≠ '.' ∧ c ≠ 'e' ∧ c ≠ 'E'

theorem Ends.nil : Ends [] := by simp [Ends]

theorem Ends.cons {c : Char} (r : List Char)
    (h : c.isDigit = false ∧ c ≠ '.' ∧ c ≠ 'e' ∧ c ≠ 'E') : Ends (c :: r) := by
  simpa [Ends] using h

theorem Ends.append {r : List Char} (h : Ends r) (hr : r ≠ []) (k : List Char) : Ends (r ++ k) := by
  cases r with
  | nil => exact absurd rfl hr
  | cons c r => simpa [Ends] using h

theorem word?_eq_some {s r : List Char} {v : Json} :
    word? s = some (v, r) ↔ ∃ w, (w, v) ∈ words ∧ s = w ++ r := by
  constructor
  · intro h
    obtain ⟨⟨w, v'⟩, hw, hs⟩ := List.exists_of_findSome?_eq_some h
    dsimp only at hs
    split at hs
    · rename_i hp
      cases hs
      obtain ⟨t, rfl⟩ := List.isPrefixOf_iff_prefix.1 hp
      exact ⟨w, hw, by simp⟩
    · cases hs
  · rintro ⟨w, hw, rfl⟩
    simp only [words, List.mem_cons, Prod.mk.injEq, List.not_mem_nil, or_false] at hw
    rcases hw with ⟨rfl, rfl⟩ | ⟨rfl, rfl⟩ | ⟨rfl, rfl⟩ | ⟨rfl, rfl⟩ | ⟨rfl, rfl⟩ | ⟨rfl, rfl⟩ <;>
      rfl

theorem digits_eq_iff {s ds r : List Char} :
    digits s = (ds, r) ↔ s = ds ++ r ∧ (∀ c ∈ ds, c.isDigit) ∧ ∀ c ∈ r.head?, c.isDigit = false := by
  unfold digits
  rw [List.span_eq_takeWhile_dropWhile, Prod.mk.injEq]
  constructor
  · rintro ⟨rfl, rfl⟩
    refine ⟨List.takeWhile_append_dropWhile.symm, fun c hc => List.mem_takeWhile_imp hc, ?_⟩
    intro c hc
    have hn := List.head?_dropWhile_not Char.isDigit s
    simp_all
  · rintro ⟨rfl, hd, hr⟩
    rw [List.takeWhile_append_of_pos hd, List.dropWhile_append_of_pos hd]
    cases r with
    | nil => simp
    | cons c r => simp_all

theorem digits_append {s r ds : List Char} (h : digits s = (ds, r)) (hr : r ≠ []) (k : List Char) :
    digits (s ++ k) = (ds, r ++ k) := by
  obtain ⟨rfl, hd, he⟩ := digits_eq_iff.1 h
  refine digits_eq_iff.2 ⟨List.append_assoc _ _ _, hd, ?_⟩
  cases r with
  | nil => exact absurd rfl hr
  | cons c r => simpa using he

/-- The digits of an integer as they are written: a lone zero, or digits that begin with another. -/
def Numeral (ds : List Char) : Prop :=
  ds = ['0'] ∨ ds.head? ≠ some '0' ∧ ds ≠ [] ∧ ∀ c ∈ ds, c.isDigit

theorem whole?_eq_some {s ds r : List Char} (h : whole? s = some (ds, r)) :
    s = ds ++ r ∧ Numeral ds ∧ (ds = ['0'] ∨ ∀ c ∈ r.head?, c.isDigit = false) := by
  unfold whole? at h
  split at h
  · cases h
    exact ⟨rfl, .inl rfl, .inl rfl⟩
  · rename_i c t hc
    split at h
    · rename_i hd
      obtain ⟨hs, hds, hr⟩ := digits_eq_iff.1 (Option.some.inj h)
      cases ds with
      | nil =>
        subst hs
        simp [hd] at hr
      | cons d ds =>
        obtain ⟨rfl, ht⟩ := List.cons.inj hs
        exact ⟨hs, .inr ⟨by simpa using fun h => hc h, by simp, hds⟩, .inr hr⟩
    · cases h
  · cases h

theorem whole?_numeral {ds r : List Char} (hn : Numeral ds) (hr : ∀ c ∈ r.head?, c.isDigit = false) :
    whole? (ds ++ r) = some (ds, r) := by
  obtain rfl | ⟨h0, hne, hd⟩ := hn
  · rfl
  · cases ds with
    | nil => exact absurd rfl hne
    | cons c ds =>
      have hc : c ≠ '0' := by simpa using h0
      have hs : digits (c :: (ds ++ r)) = (c :: ds, r) := digits_eq_iff.2 ⟨rfl, hd, hr⟩
      simp [whole?, hd c (by simp), hs]

theorem whole?_append {s ds r : List Char} (h : whole? s = some (ds, r)) (hr : r ≠ [])
    (k : List Char) : whole? (s ++ k) = some (ds, r ++ k) := by
  obtain ⟨rfl, hn, rfl | he⟩ := whole?_eq_some h
  · rfl
  · rw [List.append_assoc]
    refine whole?_numeral hn ?_
    cases r with
    | nil => exact absurd rfl hr
    | cons c r => simpa using he

theorem fraction_eq {r fs r₁ : List Char} (h : fraction r = (fs, r₁)) :
    (fs = [] ∧ r₁ = r) ∨ ∃ t, r = '.' :: t ∧ digits t = (fs, r₁) ∧ fs ≠ [] := by
  unfold fraction at h
  split at h
  · split at h
    · cases h
      exact .inl ⟨rfl, rfl⟩
    · rename_i t _ hd
      exact .inr ⟨t, rfl, h, fun hf => hd r₁ (by rw [h, hf])⟩
  · cases h
    exact .inl ⟨rfl, rfl⟩

theorem fraction_of_head {r : List Char} (h : r.head? ≠ some '.') : fraction r = ([], r) := by
  unfold fraction
  split <;> simp_all

theorem fraction_append {r fs r₁ : List Char} (h : fraction r = (fs, r₁)) (hr : r₁ ≠ [])
    (hp : r₁.head? ≠ some '.') (k : List Char) : fraction (r ++ k) = (fs, r₁ ++ k) := by
  obtain ⟨rfl, rfl⟩ | ⟨t, rfl, hd, hf⟩ := fraction_eq h
  · apply fraction_of_head
    cases r₁ <;> simp_all
  · simp only [fraction, List.cons_append, digits_append hd hr k]
    split <;> simp_all

theorem exponentDigits?_eq {neg : Bool} {s r : List Char} {e : Int}
    (h : exponentDigits? neg s = some (e, r)) :
    ∃ ds, digits s = (ds, r) ∧ ds ≠ [] ∧ e = Binary64.signed neg (Text.valueIn 10 ds) := by
  cases hd : digits s with
  | mk ds r' =>
    cases ds with
    | nil => simp [exponentDigits?, hd] at h
    | cons d ds =>
      simp only [exponentDigits?, hd] at h
      cases h
      exact ⟨d :: ds, rfl, by simp, rfl⟩

theorem exponentDigits?_append {neg : Bool} {s r : List Char} {e : Int}
    (h : exponentDigits? neg s = some (e, r)) (hr : r ≠ []) (k : List Char) :
    exponentDigits? neg (s ++ k) = some (e, r ++ k) := by
  obtain ⟨ds, hd, hn, rfl⟩ := exponentDigits?_eq h
  simp [exponentDigits?, digits_append hd hr k]

theorem exponent?_eq {s r : List Char} {e : Int} (h : exponent? s = some (e, r)) :
    ∃ c sign neg t, s = c :: (sign ++ t) ∧ (c = 'e' ∨ c = 'E') ∧
      (sign = ['-'] ∧ neg = true ∨ sign = ['+'] ∧ neg = false ∨ sign = [] ∧ neg = false) ∧
      exponentDigits? neg t = some (e, r) := by
  unfold exponent? at h
  split at h
  · rename_i c t
    split at h
    · rename_i hc
      split at h
      · rename_i t
        exact ⟨c, ['-'], true, t, rfl, hc, by simp, h⟩
      · rename_i t
        exact ⟨c, ['+'], false, t, rfl, hc, by simp, h⟩
      · exact ⟨c, [], false, t, rfl, hc, by simp, h⟩
    · cases h
  · cases h

theorem exponent?_of_ends {r : List Char} (h : Ends r) : exponent? r = none := by
  cases r with
  | nil => rfl
  | cons c r =>
    have hc := h c (by simp)
    simp [exponent?, hc]

theorem exponent?_append {s r : List Char} {e : Int} (h : exponent? s = some (e, r)) (hr : r ≠ [])
    (k : List Char) : exponent? (s ++ k) = some (e, r ++ k) := by
  obtain ⟨c, sign, neg, t, rfl, hc, hs, ht⟩ := exponent?_eq h
  have ha := exponentDigits?_append ht hr k
  obtain ⟨rfl, rfl⟩ | ⟨rfl, rfl⟩ | ⟨rfl, rfl⟩ := hs
  · simp [exponent?, hc, ha]
  · simp [exponent?, hc, ha]
  · obtain ⟨ds, hd, hn, -⟩ := exponentDigits?_eq ht
    obtain ⟨rfl, hds, -⟩ := digits_eq_iff.1 hd
    obtain ⟨d, ds, rfl⟩ := List.exists_cons_of_ne_nil hn
    have hd := hds d (by simp)
    simp only [exponent?, List.nil_append, List.cons_append, hc, if_true]
    split
    · simp_all
    · simp_all
    · simpa using ha


/-- A number without its sign, when it can be read. -/
inductive NumberStep (neg : Bool) (s : List Char) : Json → List Char → Prop where
  | int {ds r : List Char} (hw : whole? s = some (ds, r)) (hf : fraction r = ([], r))
      (he : exponent? r = none) (hd : ds.length ≤ maxDigits) :
      NumberStep neg s (.int (Binary64.signed neg (Text.valueIn 10 ds))) r
  | point {ds fs r r₁ : List Char} (hw : whole? s = some (ds, r)) (hf : fraction r = (fs, r₁))
      (hn : fs ≠ []) (he : exponent? r₁ = none) :
      NumberStep neg s
        (.float (Binary64.ofDecimal neg (Text.valueIn 10 (ds ++ fs)) (0 - fs.length))) r₁
  | scaled {ds fs r r₁ r₂ : List Char} {e : Int} (hw : whole? s = some (ds, r))
      (hf : fraction r = (fs, r₁)) (he : exponent? r₁ = some (e, r₂)) :
      NumberStep neg s
        (.float (Binary64.ofDecimal neg (Text.valueIn 10 (ds ++ fs)) (e - fs.length))) r₂

theorem readNumber_eq_ok {neg : Bool} {s r : List Char} {v : Json} :
    readNumber neg s = .ok (v, r) ↔ NumberStep neg s v r := by
  constructor
  · intro h
    cases hw : whole? s with
    | none => simp [readNumber, hw] at h
    | some x =>
      obtain ⟨ds, r₀⟩ := x
      cases hf : fraction r₀ with
      | mk fs r₁ =>
        cases he : exponent? r₁ with
        | some y =>
          obtain ⟨e, r₂⟩ := y
          simp only [readNumber, hw, hf, he, Option.getD_some, Option.isNone_some, Bool.and_false,
            Bool.false_eq_true, if_false] at h
          cases h
          exact .scaled hw hf he
        | none =>
          simp only [readNumber, hw, hf, he, Option.getD_none, Option.isNone_none, Bool.and_true] at h
          cases fs with
          | nil =>
            obtain ⟨-, rfl⟩ | ⟨t, -, -, hn⟩ := fraction_eq hf
            · split at h
              · split at h
                · cases h
                  exact .int hw hf he ‹_›
                · cases h
              · simp_all
            · exact absurd rfl hn
          | cons f fs =>
            simp only [List.isEmpty_cons, Bool.false_eq_true, if_false] at h
            cases h
            exact .point hw hf (by simp) he
  · intro h
    cases h with
    | int hw hf he hd => simp [readNumber, hw, hf, he, hd]
    | point hw hf hn he => simp [readNumber, hw, hf, he, hn]
    | scaled hw hf he => simp [readNumber, hw, hf, he]

theorem readNumber_append {neg : Bool} {s r : List Char} {v : Json}
    (h : readNumber neg s = .ok (v, r)) (hr : r ≠ []) (he : Ends r) (k : List Char) :
    readNumber neg (s ++ k) = .ok (v, r ++ k) := by
  have hk := exponent?_of_ends (he.append hr k)
  have hp : r.head? ≠ some '.' := fun h => (he '.' (by simp [h])).2.1 rfl
  cases readNumber_eq_ok.1 h with
  | int hw hf _ hd =>
    exact readNumber_eq_ok.2 (.int (whole?_append hw hr k) (fraction_append hf hr hp k) hk hd)
  | @point _ fs r₀ _ hw hf hn _ =>
    obtain ⟨rfl, -⟩ | ⟨t, rfl, -, -⟩ := fraction_eq hf
    · exact absurd rfl hn
    · exact readNumber_eq_ok.2 (.point (whole?_append hw (by simp) k) (fraction_append hf hr hp k)
        hn hk)
  | @scaled _ fs r₀ r₁ _ _ hw hf hx =>
    obtain ⟨c, sign, neg, t, rfl, hc, -, -⟩ := exponent?_eq hx
    have h₁ : (c :: (sign ++ t)).head? ≠ some '.' := by
      rintro hd
      cases hd
      simp at hc
    have h₀ : r₀ ≠ [] := by
      obtain ⟨-, rfl⟩ | ⟨t, rfl, -, -⟩ := fraction_eq hf <;> simp
    exact readNumber_eq_ok.2 (.scaled (whole?_append hw h₀ k)
      (fraction_append hf (by simp) h₁ k) (exponent?_append hx hr k))

/-- The text holds more digits in a row than an integer may have. -/
def LongRun (s : List Char) : Prop :=
  ∃ ds, ds <:+: s ∧ (∀ c ∈ ds, c.isDigit) ∧ maxDigits < ds.length

theorem LongRun.mono {s t : List Char} (h : LongRun s) (hs : s <:+: t) : LongRun t := by
  obtain ⟨ds, hi, hd, hl⟩ := h
  exact ⟨ds, hi.trans hs, hd, hl⟩

theorem readNumber_excess {neg : Bool} {s : List Char} {e : Excess}
    (h : readNumber neg s = .error (.excess e)) : e = .digits ∧ LongRun s := by
  cases hw : whole? s with
  | none => simp [readNumber, hw] at h
  | some x =>
    obtain ⟨ds, r⟩ := x
    obtain ⟨rfl, hn, -⟩ := whole?_eq_some hw
    have hd : ∀ c ∈ ds, c.isDigit := by
      obtain rfl | ⟨-, -, hd⟩ := hn
      · exact List.all_eq_true.1 rfl
      · exact hd
    simp only [readNumber, hw] at h
    split at h
    · split at h
      · cases h
      · cases h
        exact ⟨rfl, ds, List.infix_append' [] ds r, hd, by omega⟩
    · cases h

def isAtom (c : Char) : Bool := c.isAlphanum || c = '+' || c = '-' || c = '.'

theorem ne_of_isAtom {c d : Char} (h : isAtom c) (hd : isAtom d = false) : c ≠ d := by
  rintro rfl
  simp [h] at hd

theorem isAtom_of_isAlphanum {c : Char} (h : c.isAlphanum) : isAtom c := by simp [isAtom, h]

theorem isAtom_of_isDigit {c : Char} (h : c.isDigit) : isAtom c :=
  isAtom_of_isAlphanum (by simp [Char.isAlphanum, h])

def Behind (s r : List Char) : Prop := ∃ w, s = w ++ r ∧ ∀ c ∈ w, isAtom c

theorem Behind.refl (s : List Char) : Behind s s := ⟨[], rfl, by simp⟩

theorem Behind.cons {c : Char} {s r : List Char} (hc : isAtom c) (h : Behind s r) :
    Behind (c :: s) r := by
  obtain ⟨w, rfl, hw⟩ := h
  exact ⟨c :: w, rfl, by simpa using ⟨hc, hw⟩⟩

theorem Behind.trans {s t r : List Char} (h₁ : Behind s t) (h₂ : Behind t r) : Behind s r := by
  obtain ⟨w₁, rfl, hw₁⟩ := h₁
  obtain ⟨w₂, rfl, hw₂⟩ := h₂
  refine ⟨w₁ ++ w₂, by simp, fun c hc => ?_⟩
  exact (List.mem_append.1 hc).elim (hw₁ c) (hw₂ c)

theorem Behind.suffix {s r : List Char} (h : Behind s r) : r <:+ s := by
  obtain ⟨w, rfl, -⟩ := h
  exact List.suffix_append w r

theorem digits_behind {s ds r : List Char} (h : digits s = (ds, r)) : Behind s r := by
  obtain ⟨rfl, hd, -⟩ := digits_eq_iff.1 h
  exact ⟨ds, rfl, fun c hc => isAtom_of_isDigit (hd c hc)⟩

theorem whole?_behind {s ds r : List Char} (h : whole? s = some (ds, r)) : Behind s r := by
  obtain ⟨rfl, rfl | ⟨-, -, hd⟩, -⟩ := whole?_eq_some h
  · exact .cons (by decide) (.refl r)
  · exact ⟨ds, rfl, fun c hc => isAtom_of_isDigit (hd c hc)⟩

theorem fraction_behind {r fs r₁ : List Char} (h : fraction r = (fs, r₁)) : Behind r r₁ := by
  obtain ⟨-, rfl⟩ | ⟨t, rfl, ht, -⟩ := fraction_eq h
  · exact .refl _
  · exact .cons (by decide) (digits_behind ht)

theorem exponent?_behind {s r : List Char} {e : Int} (h : exponent? s = some (e, r)) :
    Behind s r := by
  obtain ⟨c, sign, neg, t, rfl, hc, hs, ht⟩ := exponent?_eq h
  obtain ⟨ds, hd, -, -⟩ := exponentDigits?_eq ht
  have hb : isAtom c := by rcases hc with rfl | rfl <;> decide
  obtain ⟨rfl, -⟩ | ⟨rfl, -⟩ | ⟨rfl, -⟩ := hs
  · exact .cons hb (.cons (by decide) (digits_behind hd))
  · exact .cons hb (.cons (by decide) (digits_behind hd))
  · exact .cons hb (digits_behind hd)

theorem readNumber_behind {neg : Bool} {s r : List Char} {v : Json}
    (h : readNumber neg s = .ok (v, r)) : Behind s r := by
  cases readNumber_eq_ok.1 h with
  | int hw => exact whole?_behind hw
  | point hw hf => exact (whole?_behind hw).trans (fraction_behind hf)
  | scaled hw hf he =>
    exact ((whole?_behind hw).trans (fraction_behind hf)).trans (exponent?_behind he)

theorem readPlain_behind {s r : List Char} {v : Json} (h : readPlain s = .ok (v, r)) :
    Behind s r := by
  unfold readPlain at h
  split at h
  · rename_i x hw
    cases h
    obtain ⟨w, hm, rfl⟩ := word?_eq_some.1 hw
    have hb : words.all fun x => x.1.all isAtom := rfl
    exact ⟨w, rfl, List.all_eq_true.1 (List.all_eq_true.1 hb _ hm)⟩
  · split at h
    · exact .cons (by decide) (readNumber_behind h)
    · exact readNumber_behind h

theorem readNumber_head {neg : Bool} {s r : List Char} {v : Json}
    (h : readNumber neg s = .ok (v, r)) : ∃ c t, s = c :: t ∧ c.isDigit := by
  have hw : ∃ ds r', whole? s = some (ds, r') := by
    cases readNumber_eq_ok.1 h with
    | int hw | point hw | scaled hw => exact ⟨_, _, hw⟩
  obtain ⟨ds, r', hw⟩ := hw
  obtain ⟨rfl, rfl | ⟨-, hn, hd⟩, -⟩ := whole?_eq_some hw
  · exact ⟨'0', r', rfl, rfl⟩
  · obtain ⟨c, ds, rfl⟩ := List.exists_cons_of_ne_nil hn
    exact ⟨c, ds ++ r', rfl, hd c (by simp)⟩

theorem word?_of_digit {c : Char} (hc : c.isDigit) (s : List Char) : word? (c :: s) = none := by
  cases h : word? (c :: s) with
  | none => rfl
  | some x =>
    obtain ⟨w, hm, hw⟩ := word?_eq_some.1 h
    have hd : words.all fun x => x.1.head?.any fun d => !d.isDigit := rfl
    have hn := List.all_eq_true.1 hd _ hm
    cases w with
    | nil => cases hn
    | cons e w => simp_all

theorem word?_of_minus {c : Char} (hc : c.isDigit) (s : List Char) :
    word? ('-' :: c :: s) = none := by
  cases h : word? ('-' :: c :: s) with
  | none => rfl
  | some x =>
    obtain ⟨w, hm, hw⟩ := word?_eq_some.1 h
    have hd : ∀ x ∈ words, x.1 ≠ [] ∧ (x.1.head? = some '-' → x.1.tail.head? = some 'I') := by
      decide
    obtain ⟨hn, hi⟩ := hd _ hm
    obtain ⟨d, w, rfl⟩ := List.exists_cons_of_ne_nil hn
    obtain ⟨rfl, ht⟩ := List.cons.inj hw
    have hi : w.head? = some 'I' := hi rfl
    cases w with
    | nil => cases hi
    | cons e w =>
      cases hi
      have he : c = 'I' := (List.cons.inj ht).1
      subst he
      cases hc

theorem readPlain_append {s r : List Char} {v : Json} (h : readPlain s = .ok (v, r)) (hr : r ≠ [])
    (he : Ends r) (k : List Char) : readPlain (s ++ k) = .ok (v, r ++ k) := by
  unfold readPlain at h
  split at h
  · rename_i x hw
    cases h
    obtain ⟨w, hm, rfl⟩ := word?_eq_some.1 hw
    have hk := word?_eq_some.2 ⟨w, hm, List.append_assoc w r k⟩
    simp only [readPlain, hk]
  · split at h
    · rename_i s hw
      obtain ⟨c, t, rfl, hc⟩ := readNumber_head h
      have hk := readNumber_append h hr he k
      simp_all [readPlain, word?_of_minus]
    · rename_i s hw hm
      obtain ⟨c, t, rfl, hc⟩ := readNumber_head h
      have hk := readNumber_append h hr he k
      have hc' : c ≠ '-' := by
        rintro rfl
        cases hc
      simp_all [readPlain, word?_of_digit]

/-- The only excess outside of lists and objects is one of digits. -/
theorem readPlain_excess {s : List Char} {e : Excess} (h : readPlain s = .error (.excess e)) :
    e = .digits ∧ LongRun s := by
  unfold readPlain at h
  split at h
  · cases h
  · split at h
    · obtain ⟨he, hl⟩ := readNumber_excess h
      exact ⟨he, hl.mono (List.suffix_cons _ _).isInfix⟩
    · exact readNumber_excess h

end CodeAudit.Json.Reader
