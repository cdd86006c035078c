import CodeAudit.Review.Fence
import Mathlib.Data.List.Infix
import Mathlib.Data.List.TakeDrop
import Mathlib.Data.List.TakeWhile

set_option autoImplicit false

namespace CodeAudit

namespace Text

theorem exists_last_break {s : List Char} (h : '\n' ∈ s) :
    ∃ w t, s = w ++ '\n' :: t ∧ '\n' ∉ t := by
  induction s with
  | nil => cases h
  | cons c s ih =>
    by_cases hs : '\n' ∈ s
    · obtain ⟨w, t, rfl, ht⟩ := ih hs
      exact ⟨c :: w, t, rfl, ht⟩
    · obtain rfl : '\n' = c := by simpa [hs] using h
      exact ⟨[], s, rfl, hs⟩

theorem lastLine_append {t : List Char} (w : List Char) (h : '\n' ∉ t) :
    lastLine (w ++ '\n' :: t) = t := by
  have ht : ∀ c ∈ t.reverse, (decide (c ≠ '\n')) = true := by
    intro c hc
    have : c ∈ t := by simpa using hc
    simp only [ne_eq, decide_eq_true_eq]
    rintro rfl
    exact h this
  have hs : (w ++ '\n' :: t).reverse = t.reverse ++ '\n' :: w.reverse := by simp
  rw [lastLine, hs, List.takeWhile_append_of_pos ht]
  simp

end Text

namespace Fence

theorem ticks_front {c : Char} {b r : List Char} (h : ticks <+: c :: b ++ ticks ++ r) :
    ticks <+: c :: b ++ ['`', '`'] := by
  refine List.prefix_of_prefix_length_le h ⟨'`' :: r, by simp [ticks]⟩ ?_
  simp [ticks]

theorem untilTicks?_eq_some_iff {s b r : List Char} :
    untilTicks? s = some (b, r) ↔ s = b ++ ticks ++ r ∧ ¬ticks <:+: b ++ ['`', '`'] := by
  induction s generalizing b with
  | nil => simp [untilTicks?, ticks]
  | cons c s ih =>
    rw [untilTicks?]
    split
    · rename_i h
      obtain ⟨t, ht⟩ := List.isPrefixOf_iff_prefix.1 h
      rw [← ht]
      cases b with
      | nil => simp [ticks, List.infix_cons_iff]
      | cons d b =>
        constructor
        · intro h
          cases h
        · rintro ⟨hs, hn⟩
          exact absurd (ticks_front ⟨t, hs⟩).isInfix hn
    · rename_i h
      have hp : ¬ticks <+: c :: s := fun hp => h (List.isPrefixOf_iff_prefix.2 hp)
      cases b with
      | nil =>
        constructor
        · intro h
          obtain ⟨⟨b, r⟩, -, h⟩ := Option.map_eq_some_iff.1 h
          cases h
        · rintro ⟨hs, -⟩
          exact absurd ⟨r, hs.symm⟩ hp
      | cons d b =>
        constructor
        · intro h
          obtain ⟨⟨b, r⟩, hs, h⟩ := Option.map_eq_some_iff.1 h
          cases h
          obtain ⟨rfl, hn⟩ := ih.1 hs
          refine ⟨rfl, fun hi => ?_⟩
          obtain hi | hi := List.infix_cons_iff.1 hi
          · exact hp (hi.trans ⟨'`' :: r, by simp [ticks]⟩)
          · exact hn hi
        · rintro ⟨hs, hn⟩
          obtain ⟨rfl, rfl⟩ := List.cons.inj hs
          have hb := ih.2 ⟨rfl, fun hi => hn (List.infix_cons_iff.2 (.inr hi))⟩
          exact Option.map_eq_some_iff.2 ⟨_, hb, rfl⟩

theorem untilTicks?_eq_none_iff {s : List Char} : untilTicks? s = none ↔ ¬ticks <:+: s := by
  induction s with
  | nil => simp [untilTicks?, ticks]
  | cons c s ih =>
    rw [untilTicks?, List.infix_cons_iff]
    split
    · rename_i h
      simp [List.isPrefixOf_iff_prefix.1 h]
    · rename_i h
      have hp : ¬ticks <+: c :: s := fun hp => h (List.isPrefixOf_iff_prefix.2 hp)
      simp [hp, ih]

theorem ticks_front_append {t r : List Char} {c : Char} (h : ticks <+: t ++ c :: r) (hc : c ≠ '`') :
    ticks <+: t := by
  match t with
  | [] | [a] | [a, b] => simp [ticks, List.cons_prefix_cons, Ne.symm hc] at h
  | a :: b :: d :: t =>
    simp only [ticks, List.cons_append, List.cons_prefix_cons, List.nil_prefix, and_true] at h ⊢
    exact h

theorem ticks_within_append {t r : List Char} {c : Char} (h : ticks <:+: t ++ c :: r) (hc : c ≠ '`') :
    ticks <:+: t ∨ ticks <:+: r := by
  induction t with
  | nil =>
    obtain h | h := List.infix_cons_iff.1 h
    · exact absurd (List.cons_prefix_cons.1 h).1.symm hc
    · exact .inr h
  | cons d t ih =>
    obtain h | h := List.infix_cons_iff.1 h
    · exact .inl (ticks_front_append (t := d :: t) h hc).isInfix
    · obtain h | h := ih h
      · exact .inl (List.infix_cons_iff.2 (.inr h))
      · exact .inr h

theorem untilTicks?_append {s b r : List Char} (h : untilTicks? s = some (b, r)) (k : List Char) :
    untilTicks? (s ++ k) = some (b, r ++ k) := by
  obtain ⟨rfl, hn⟩ := untilTicks?_eq_some_iff.1 h
  exact untilTicks?_eq_some_iff.2 ⟨by rw [List.append_assoc], hn⟩

theorem untilTicks?_break {s : List Char} (h : ¬ticks <:+: s) (k : List Char) :
    untilTicks? (s ++ '\n' :: ticks ++ k) = some (s ++ ['\n'], k) := by
  refine untilTicks?_eq_some_iff.2 ⟨by simp, fun hi => ?_⟩
  rw [List.append_assoc] at hi
  obtain hi | hi := ticks_within_append hi (by decide)
  · exact h hi
  · exact absurd hi (by decide)

/-- A block opens at the front of `s`, and `r` is the text from its body on. -/
def Opens (s r : List Char) : Prop :=
  ∃ tag w, s = ticks ++ tag ++ w ++ '\n' :: r ∧ (∀ c ∈ tag, isTagChar c) ∧
    (∀ c ∈ w, Text.isBlank c) ∧ '\n' ∉ r.takeWhile Text.isBlank

theorem afterBreak?_eq_some_iff {s r : List Char} :
    afterBreak? s = some r ↔ ∃ w, s = w ++ '\n' :: r ∧ (∀ c ∈ w, Text.isBlank c) ∧
      '\n' ∉ r.takeWhile Text.isBlank := by
  have hb (s : List Char) : (s.dropWhile Text.isBlank).takeWhile Text.isBlank = [] := by
    induction s with
    | nil => rfl
    | cons c s ih => by_cases hc : Text.isBlank c <;> simp [hc, ih]
  unfold afterBreak?
  rw [List.span_eq_takeWhile_dropWhile]
  constructor
  · intro h
    dsimp only at h
    split at h
    · rename_i hm
      have hs := List.takeWhile_append_dropWhile (p := Text.isBlank) (l := s)
      have hw : ∀ c ∈ s.takeWhile Text.isBlank, Text.isBlank c := fun c => List.mem_takeWhile_imp
      obtain ⟨w, t, he, ht⟩ := Text.exists_last_break (by simpa using hm)
      rw [he] at h hs hw
      rw [Text.lastLine_append w ht] at h
      cases h
      refine ⟨w, by simpa using hs.symm, fun c hc => hw c (by simp [hc]), ?_⟩
      rw [List.takeWhile_append_of_pos fun c hc => hw c (by simp [hc]), hb]
      simpa using ht
    · cases h
  · rintro ⟨w, rfl, hw, hn⟩
    have hl : Text.isBlank '\n' := by decide
    rw [List.takeWhile_append_of_pos hw, List.dropWhile_append_of_pos hw,
      List.takeWhile_cons_of_pos hl, List.dropWhile_cons_of_pos hl]
    simp [Text.lastLine_append w hn]

theorem after?_eq_some_iff {s r : List Char} : Text.after? ticks s = some r ↔ s = ticks ++ r := by
  unfold Text.after?
  constructor
  · intro h
    split at h
    · rename_i hp
      obtain ⟨t, rfl⟩ := List.isPrefixOf_iff_prefix.1 hp
      simpa using h
    · cases h
  · rintro rfl
    simp

theorem toNat_of_isAlphanum {c : Char} (h : c.isAlphanum) : 48 ≤ c.toNat ∧ c.toNat ≤ 122 := by
  have ha : (decide ('A'.val ≤ c.val ∧ c.val ≤ 'Z'.val) || ('a'.val ≤ c.val && c.val ≤ 'z'.val) ||
    ('0'.val ≤ c.val && c.val ≤ '9'.val)) = true := h
  simp only [UInt32.le_iff_toNat_le, Bool.or_eq_true, Bool.and_eq_true, decide_eq_true_eq] at ha
  have hz : 'A'.val.toNat = 65 ∧ 'Z'.val.toNat = 90 ∧ 'a'.val.toNat = 97 ∧ 'z'.val.toNat = 122 ∧
    '0'.val.toNat = 48 ∧ '9'.val.toNat = 57 := by decide
  have hc : c.toNat = c.val.toNat := rfl
  omega

theorem not_isTagChar {c : Char} (h : Text.isBlank c) : isTagChar c = false := by
  refine Bool.eq_false_iff.2 fun ht => ?_
  simp only [isTagChar, Bool.or_eq_true, decide_eq_true_eq] at ht
  obtain ((ht | rfl) | rfl) | rfl := ht
  · have ha := toNat_of_isAlphanum ht
    simp only [Text.isBlank, Bool.or_eq_true, Bool.and_eq_true, decide_eq_true_eq, beq_iff_eq] at h
    omega
  · exact absurd h (by decide)
  · exact absurd h (by decide)
  · exact absurd h (by decide)

theorem blockAt?_eq_some_iff {s body rest : List Char} :
    blockAt? s = some (body, rest) ↔
      ∃ r b, Opens s r ∧ untilTicks? r = some (b, rest) ∧ body = dropBreak b := by
  simp only [blockAt?, Option.bind_eq_bind, Option.bind_eq_some_iff, Option.pure_def,
    Option.some.injEq, Prod.mk.injEq, after?_eq_some_iff, afterBreak?_eq_some_iff]
  constructor
  · rintro ⟨_, rfl, r, ⟨w, hs, hw, hn⟩, ⟨b, rest⟩, hu, rfl, rfl⟩
    rename_i t
    refine ⟨r, b, ⟨t.takeWhile isTagChar, w, ?_, fun c => List.mem_takeWhile_imp, hw, hn⟩, hu, rfl⟩
    rw [List.append_assoc, List.append_assoc, ← hs, List.takeWhile_append_dropWhile]
  · rintro ⟨r, b, ⟨tag, w, rfl, ht, hw, hn⟩, hu, rfl⟩
    refine ⟨tag ++ (w ++ '\n' :: r), by simp, r, ⟨w, ?_, hw, hn⟩, ⟨b, rest⟩, hu, rfl, rfl⟩
    rw [List.dropWhile_append_of_pos ht]
    cases w with
    | nil => simp [isTagChar]
    | cons c w => simp [not_isTagChar (hw c (by simp))]

def Begins (s : List Char) : Prop :=
  ∃ tag w r, s = ticks ++ tag ++ w ++ '\n' :: r ∧ (∀ c ∈ tag, isTagChar c) ∧ ∀ c ∈ w, Text.isBlank c

theorem Opens.begins {s r : List Char} (h : Opens s r) : Begins s := by
  obtain ⟨tag, w, hs, ht, hw, -⟩ := h
  exact ⟨tag, w, r, hs, ht, hw⟩

theorem Begins.ticks {s : List Char} (h : Begins s) : ticks <+: s := by
  obtain ⟨tag, w, r, rfl, -⟩ := h
  exact ⟨tag ++ w ++ '\n' :: r, by simp⟩

/-- No text begins so whose first line holds a character that an opening has no place for. -/
theorem not_begins_of_line {a r : List Char} {c : Char} (ha : '\n' ∉ a) (hc : c ≠ '`')
    (ht : isTagChar c = false) (hb : Text.isBlank c = false) : ¬Begins (a ++ c :: r) := by
  rintro ⟨tag, w, r', hs, htag, hw⟩
  have hm : c ∉ ticks ++ tag ++ w := by
    simp only [List.mem_append, not_or]
    refine ⟨⟨by simpa [ticks] using hc, fun hm => ?_⟩, fun hm => ?_⟩
    · simp [htag c hm] at ht
    · simp [hw c hm] at hb
  have hn : c ≠ '\n' := by
    rintro rfl
    cases hb
  obtain ⟨a', hp, hr⟩ | ⟨c', hp, hr⟩ := List.append_eq_append_iff.1 hs
  · cases a' with
    | nil => exact absurd (List.cons.inj hr).1 hn
    | cons d a' =>
      obtain ⟨rfl, -⟩ := List.cons.inj hr
      exact absurd (by simp [hp]) hm
  · cases c' with
    | nil => exact absurd (List.cons.inj hr).1.symm hn
    | cons d c' =>
      obtain ⟨rfl, -⟩ := List.cons.inj hr
      exact absurd (by simp [hp]) ha

theorem blockAt?_of_line {a r : List Char} {c : Char} (ha : '\n' ∉ a) (hc : c ≠ '`')
    (ht : isTagChar c = false) (hb : Text.isBlank c = false) : blockAt? (a ++ c :: r) = none := by
  cases h : blockAt? (a ++ c :: r) with
  | none => rfl
  | some x =>
    obtain ⟨r', b, ho, -⟩ := blockAt?_eq_some_iff.1 h
    exact absurd ho.begins (not_begins_of_line ha hc ht hb)

theorem blockAt?_of_not_ticks {s : List Char} (h : ¬ticks <+: s) : blockAt? s = none := by
  cases hs : blockAt? s with
  | none => rfl
  | some x =>
    obtain ⟨r, b, ⟨tag, w, rfl, -⟩, -⟩ := blockAt?_eq_some_iff.1 hs
    exact absurd ⟨tag ++ w ++ '\n' :: r, by simp⟩ h

theorem blockAt?_within {s body rest : List Char} (h : blockAt? s = some (body, rest)) :
    body <:+: s ∧ rest <:+ s ∧ rest.length < s.length := by
  obtain ⟨r, b, ⟨tag, w, rfl, -⟩, hu, rfl⟩ := blockAt?_eq_some_iff.1 h
  obtain ⟨rfl, -⟩ := untilTicks?_eq_some_iff.1 hu
  have hb : dropBreak b <+: b := by
    unfold dropBreak
    split
    · exact List.dropLast_prefix b
    · exact List.prefix_rfl
  refine ⟨hb.isInfix.trans ⟨ticks ++ tag ++ w ++ ['\n'], ticks ++ rest, by simp⟩, ?_, ?_⟩
  · exact ⟨ticks ++ tag ++ w ++ '\n' :: b ++ ticks, by simp⟩
  · simp only [List.length_append, List.length_cons]
    omega

theorem bodiesFrom_eq {fuel fuel' : Nat} {s : List Char} (h : s.length ≤ fuel)
    (h' : s.length ≤ fuel') : bodiesFrom fuel s = bodiesFrom fuel' s := by
  induction fuel generalizing fuel' s with
  | zero =>
    obtain rfl := List.length_eq_zero_iff.1 (Nat.le_zero.1 h)
    cases fuel' <;> rfl
  | succ fuel ih =>
    cases s with
    | nil => cases fuel' <;> rfl
    | cons c s =>
      obtain ⟨fuel', rfl⟩ : ∃ n, fuel' = n + 1 := ⟨fuel' - 1, by simp at h'; omega⟩
      simp only [List.length_cons] at h h'
      simp only [bodiesFrom]
      split
      · rename_i body rest hb
        have hl := (blockAt?_within hb).2.2
        simp only [List.length_cons] at hl
        exact congrArg (body :: ·) (ih (by omega) (by omega))
      · exact ih (by omega) (by omega)

theorem bodies_cons {c : Char} {s : List Char} (h : blockAt? (c :: s) = none) :
    bodies (c :: s) = bodies s := by
  simp [bodies, bodiesFrom, h]

theorem bodies_of_block {s body rest : List Char} (h : blockAt? s = some (body, rest)) :
    bodies s = body :: bodies rest := by
  have hl := (blockAt?_within h).2.2
  cases s with
  | nil => cases hl
  | cons c s =>
    simp only [List.length_cons] at hl
    simp only [bodies, List.length_cons, bodiesFrom, h]
    rw [bodiesFrom_eq (by omega) (Nat.le_refl rest.length)]

theorem bodies_append {a s : List Char}
    (h : ∀ t, t <:+ a → t ≠ [] → blockAt? (t ++ s) = none) : bodies (a ++ s) = bodies s := by
  induction a with
  | nil => rfl
  | cons c a ih =>
    have hc := h (c :: a) List.suffix_rfl (by simp)
    exact (bodies_cons hc).trans (ih fun t ht => h t (ht.trans (List.suffix_cons c a)))

theorem bodies_within {s body : List Char} (h : body ∈ bodies s) : body <:+: s := by
  have hf (fuel : Nat) (s : List Char) : body ∈ bodiesFrom fuel s → body <:+: s := by
    intro h
    induction fuel generalizing s with
    | zero => cases h
    | succ fuel ih =>
      cases s with
      | nil => cases h
      | cons c s =>
        simp only [bodiesFrom] at h
        split at h
        · rename_i body' rest hb
          obtain ⟨hi, hr, -⟩ := blockAt?_within hb
          obtain rfl | h := List.mem_cons.1 h
          · exact hi
          · exact (ih rest h).trans hr.isInfix
        · exact (ih s h).trans (List.suffix_cons c s).isInfix
  exact hf s.length s h

theorem bodies_of_not_ticks {s : List Char} (h : ¬ticks <:+: s) : bodies s = [] := by
  have hb := bodies_append (a := s) (s := []) fun t ht _ => blockAt?_of_not_ticks fun hp => by
    rw [List.append_nil] at hp
    exact h (hp.isInfix.trans ht.isInfix)
  rwa [List.append_nil] at hb

theorem bodies_of_oneLine {s : List Char} (h : '\n' ∉ s) : bodies s = [] := by
  have hb := bodies_append (a := s) (s := []) fun t ht _ => by
    rw [List.append_nil]
    cases hs : blockAt? t with
    | none => rfl
    | some x =>
      obtain ⟨r, b, ⟨tag, w, rfl, -⟩, -⟩ := blockAt?_eq_some_iff.1 hs
      exact absurd (ht.subset (by simp)) h
  rwa [List.append_nil] at hb

def block (tag body : List Char) : List Char := ticks ++ tag ++ '\n' :: body ++ '\n' :: ticks

theorem opens_block {tag : List Char} (ht : ∀ c ∈ tag, isTagChar c) {c : Char}
    (hc : Text.isBlank c = false) (body after : List Char) :
    Opens (block tag (c :: body) ++ after) (c :: body ++ '\n' :: ticks ++ after) :=
  ⟨tag, [], by simp [block], ht, by simp, by simp [hc]⟩

theorem dropBreak_concat (b : List Char) : dropBreak (b ++ ['\n']) = b := by simp [dropBreak]

/-- A body without ticks is found as it is, whatever stands behind its block. -/
theorem bodies_block_append {tag : List Char} (ht : ∀ c ∈ tag, isTagChar c) {c : Char}
    (hc : Text.isBlank c = false) {body : List Char} (hn : ¬ticks <:+: c :: body)
    (after : List Char) : bodies (block tag (c :: body) ++ after) = (c :: body) :: bodies after :=
  bodies_of_block (blockAt?_eq_some_iff.2 ⟨_, _, opens_block ht hc body after,
    untilTicks?_break hn after, (dropBreak_concat (c :: body)).symm⟩)

theorem bodies_prose {before : List Char} (h : ¬ticks <:+: before) (s : List Char) :
    bodies (before ++ '\n' :: s) = bodies s := by
  have hl : bodies ('\n' :: s) = bodies s :=
    bodies_cons (blockAt?_of_not_ticks fun hp => absurd (List.cons_prefix_cons.1 hp).1 (by decide))
  rw [← hl]
  refine bodies_append fun t ht _ => blockAt?_of_not_ticks fun hp => h ?_
  exact (ticks_front_append hp (by decide)).isInfix.trans ht.isInfix

end Fence
end CodeAudit
