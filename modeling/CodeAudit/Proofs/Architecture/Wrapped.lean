import CodeAudit.Proofs.Architecture.Answer
import CodeAudit.Proofs.Json.Balanced
import CodeAudit.Proofs.Json.RoundTrip
import CodeAudit.Proofs.Review.Fence

/-!
An object in an answer, in a block or in prose. Braces are counted outside of literals, so that the count
returns where the object ends and nowhere before. Ticks in its texts neither open a block nor close one.
-/
set_option autoImplicit false

namespace CodeAudit

namespace Text

theorem dropWhile_append_cons {p : Char → Bool} {c : Char} (hc : p c = false) (s t : List Char) :
    (s ++ c :: t).dropWhile p = s.dropWhile p ++ c :: t := by
  rw [List.dropWhile_append]
  split
  · rename_i h
    simp [List.isEmpty_iff.1 h, hc]
  · rfl

theorem dropTail_append_cons {p : Char → Bool} {c : Char} (hc : p c = false) (s t : List Char) :
    dropTail p (s ++ c :: t) = s ++ c :: dropTail p t := by
  have hr : (s ++ c :: t).reverse = t.reverse ++ c :: s.reverse := by simp
  rw [dropTail, hr, dropWhile_append_cons hc]
  simp [dropTail]

theorem trimBy_append {p : Char → Bool} {c d : Char} (hc : p c = false) (hd : p d = false)
    (s t u : List Char) :
    trimBy p (s ++ c :: (t ++ d :: u)) = s.dropWhile p ++ c :: (t ++ d :: dropTail p u) := by
  rw [trimBy, dropWhile_append_cons hc, ← List.cons_append, ← List.append_assoc, dropTail_append_cons hd,
    List.append_assoc, List.cons_append]

theorem dropTail_infix (p : Char → Bool) (s : List Char) : dropTail p s <:+: s :=
  (List.rdropWhile_prefix p s).isInfix

end Text

theorem Json.denotes_render {limit : Nat} {l : Layout} (hl : l.Blank) {fs : Fields}
    (h : (object fs).Legible) : Denotes limit (render l (.object fs)) fs ↔ (object fs).nesting ≤ limit := by
  refine ⟨readAt_nesting, fun hm => ?_⟩
  have hr := readAt_render hl h hm .nil
  rwa [List.append_nil] at hr

namespace Architecture

open Fence (ticks)
open Json (Inside Balanced)

theorem untilClosed_inside {w : List Char} (h : Inside w) (d : Nat) (k : List Char) :
    untilClosed ⟨d, true, false⟩ (w ++ k) = w ++ untilClosed ⟨d, true, false⟩ k := by
  induction h generalizing k with
  | nil => rfl
  | char hq hb _ => simp [untilClosed, Reading.closes, Reading.next, hq, hb]
  | escape => simp [untilClosed, Reading.closes, Reading.next]
  | append _ _ hv hw => rw [List.append_assoc, hv, hw, List.append_assoc]

/-- Below the outermost brace the count passes over a balanced stretch and is where it was. -/
theorem untilClosed_balanced {w : List Char} (h : Balanced w) {d : Nat} (hd : 0 < d) (k : List Char) :
    untilClosed ⟨d, false, false⟩ (w ++ k) = w ++ untilClosed ⟨d, false, false⟩ k := by
  induction h generalizing d k with
  | nil => rfl
  | neutral hc =>
    simp only [Json.isNeutral, Bool.and_eq_true, bne_iff_ne] at hc
    simp [untilClosed, Reading.closes, Reading.next, hc]
  | literal hw =>
    simp [untilClosed, Reading.closes, Reading.next, untilClosed_inside hw]
  | braces _ ih =>
    have hne : d ≠ 0 := by omega
    simp [untilClosed, Reading.closes, Reading.next, ih (Nat.succ_pos d), hne]
  | append _ _ hv hw => rw [List.append_assoc, hv hd, hw hd, List.append_assoc]

theorem untilClosed_object {w : List Char} (h : Balanced w) (k : List Char) :
    untilClosed ⟨0, false, false⟩ ('{' :: (w ++ '}' :: k)) = '{' :: (w ++ ['}']) := by
  simp [untilClosed, Reading.closes, Reading.next, untilClosed_balanced h Nat.one_pos]

theorem Opens.begins {s blanks body : List Char} (h : Opens s blanks body) : Fence.Begins s := by
  obtain ⟨tag, t, htag, rfl, hblanks, k, rfl⟩ := h
  refine ⟨tag, blanks, body ++ (closing ++ k), by simp, ?_, hblanks⟩
  obtain rfl | rfl := htag
  · simp
  · exact List.all_eq_true.1 rfl

theorem blockAt?_of_not_begins {s : List Char} (h : ¬Fence.Begins s) : blockAt? s = none := by
  obtain ⟨blanks, body, -, hbest⟩ | ⟨hnone, -⟩ := blockAt?_spec s
  · exact absurd hbest.lazy.holds.begins h
  · exact hnone

theorem firstBlock?_cons {c : Char} {s : List Char} (h : ¬Fence.Begins (c :: s)) :
    firstBlock? (c :: s) = firstBlock? s := by
  rw [firstBlock?, blockAt?_of_not_begins h, Option.none_or]

theorem firstBlock?_append {a s : List Char} (h : ∀ t, t <:+ a → t ≠ [] → ¬Fence.Begins (t ++ s)) :
    firstBlock? (a ++ s) = firstBlock? s := by
  induction a with
  | nil => rfl
  | cons c a ih =>
    have hc := h (c :: a) List.suffix_rfl (by simp)
    exact (firstBlock?_cons hc).trans (ih fun t ht => h t (ht.trans (List.suffix_cons c a)))

theorem firstBlock?_prose {a s : List Char} {c : Char} (ha : ¬ticks <:+: a) (hc : c ≠ '`') :
    firstBlock? (a ++ c :: s) = firstBlock? (c :: s) :=
  firstBlock?_append fun _ ht _ hb => ha ((Fence.ticks_front_append hb.ticks hc).isInfix.trans ht.isInfix)

theorem firstBlock?_of_not_ticks {s : List Char} (h : ¬ticks <:+: s) : firstBlock? s = none :=
  firstBlock?_eq_none_iff.2 fun hblock => h ((List.suffix_cons '\n' ticks).isInfix.trans hblock.ends)

theorem firstBlock?_inside {w : List Char} (h : '\n' ∉ w) (s : List Char) :
    firstBlock? (w ++ '"' :: s) = firstBlock? s := by
  have hq : firstBlock? ('"' :: s) = firstBlock? s :=
    firstBlock?_cons fun hb => absurd (List.cons_prefix_cons.1 hb.ticks).1 (by decide)
  rw [firstBlock?_append fun t ht _ => ?_, hq]
  exact Fence.not_begins_of_line (fun hm => h (ht.subset hm)) (by decide) (by decide) (by decide)

theorem firstBlock?_balanced {w : List Char} (h : Balanced w) (s : List Char) :
    firstBlock? (w ++ s) = firstBlock? s := by
  have hcons {c : Char} {s : List Char} (hc : c ≠ '`') : firstBlock? (c :: s) = firstBlock? s :=
    firstBlock?_cons fun hb => hc (List.cons_prefix_cons.1 hb.ticks).1.symm
  induction h generalizing s with
  | nil => rfl
  | neutral hc =>
    simp only [Json.isNeutral, Bool.and_eq_true, bne_iff_ne] at hc
    exact hcons hc.2
  | literal hw =>
    rw [List.cons_append, List.append_assoc, hcons (by decide)]
    exact firstBlock?_inside hw.not_mem s
  | braces _ ih =>
    rw [List.cons_append, List.append_assoc, hcons (by decide), ih]
    exact hcons (by decide)
  | append _ _ hv hw => rw [List.append_assoc, hv, hw]

theorem untilClosing?_cons {c : Char} {s : List Char} (h : c = '\n' → s.head? ≠ some '`') :
    untilClosing? (c :: s) = (untilClosing? s).map (c :: ·) := by
  rw [untilClosing?, if_neg]
  rw [Bool.and_eq_true, decide_eq_true_eq, List.isPrefixOf_iff_prefix]
  rintro ⟨hc, r, rfl⟩
  exact h hc rfl

theorem untilClosing?_inside {w : List Char} (h : '\n' ∉ w) (s : List Char) :
    untilClosing? (w ++ s) = (untilClosing? s).map (w ++ ·) := by
  induction w with
  | nil => simp
  | cons c w ih =>
    obtain ⟨hc, hw⟩ := not_or.1 (List.mem_cons.not.1 h)
    rw [List.cons_append, untilClosing?_cons fun he => absurd he.symm hc, ih hw, Option.map_map]
    rfl

/-- No fence closes in a balanced stretch: behind its line feeds, all of them outside of literals, stands no
tick. -/
theorem untilClosing?_balanced {w : List Char} (h : Balanced w) {s : List Char} (hs : s.head? ≠ some '`') :
    (w ++ s).head? ≠ some '`' ∧ untilClosing? (w ++ s) = (untilClosing? s).map (w ++ ·) := by
  have hcons {c : Char} {s : List Char} (hc : c ≠ '\n') :
      untilClosing? (c :: s) = (untilClosing? s).map (c :: ·) := untilClosing?_cons fun he => absurd he hc
  induction h generalizing s with
  | nil => simpa using hs
  | neutral hc =>
    simp only [Json.isNeutral, Bool.and_eq_true, bne_iff_ne] at hc
    exact ⟨by simpa using hc.2, untilClosing?_cons fun _ => hs⟩
  | literal hw =>
    refine ⟨by simp, ?_⟩
    rw [List.cons_append, List.append_assoc, hcons (by decide), untilClosing?_inside hw.not_mem,
      List.singleton_append, hcons (by decide), Option.map_map, Option.map_map]
    simp [Function.comp_def]
  | braces _ ih =>
    refine ⟨by simp, ?_⟩
    rw [List.cons_append, List.append_assoc, hcons (by decide), (ih (by simp)).2, List.singleton_append,
      hcons (by decide), Option.map_map, Option.map_map]
    simp [Function.comp_def]
  | append _ _ hv hw =>
    obtain ⟨hh, hu⟩ := hw hs
    obtain ⟨hh', hu'⟩ := hv hh
    rw [List.append_assoc, hu', hu, Option.map_map]
    exact ⟨hh', by simp [Function.comp_def]⟩

theorem objectText_of_selected {answer a w k : List Char} (hw : Balanced w) (ha : '{' ∉ a)
    (h : selected answer = a ++ '{' :: (w ++ '}' :: k)) : objectText answer = '{' :: (w ++ ['}']) := by
  rw [objectText_of_first_brace h ha]
  exact untilClosed_object hw k

theorem objectText_prose {w before after : List Char} (hw : Balanced w) (hbrace : '{' ∉ before)
    (hb : ¬ticks <:+: before) (ha : ¬ticks <:+: after) :
    objectText (before ++ '{' :: (w ++ '}' :: after)) = '{' :: (w ++ ['}']) := by
  have hs : Text.strip (before ++ '{' :: (w ++ '}' :: after)) =
      before.dropWhile Text.isBlank ++ '{' :: (w ++ '}' :: Text.dropTail Text.isBlank after) :=
    Text.trimBy_append (by decide) (by decide) before w after
  have hbefore : before.dropWhile Text.isBlank <:+ before := List.dropWhile_suffix _
  have hnone : firstBlock? ('{' :: (w ++ '}' :: Text.dropTail Text.isBlank after)) = none := by
    have hobject := firstBlock?_balanced hw.braces (Text.dropTail Text.isBlank after)
    rw [List.cons_append, List.append_assoc, List.singleton_append] at hobject
    rw [hobject]
    exact firstBlock?_of_not_ticks fun h => ha (h.trans (Text.dropTail_infix _ after))
  refine objectText_of_selected (k := Text.dropTail Text.isBlank after) hw (fun h => hbrace (hbefore.subset h)) ?_
  rw [selected, hs, firstBlock?_prose (fun h => hb (h.trans hbefore.isInfix)) (by decide), hnone]

theorem bodyAfter?_break {c : Char} {s body : List Char} (hc : Text.isBlank c = false)
    (h : untilClosing? (c :: s) = some body) : bodyAfter? ('\n' :: c :: s) = some body := by
  have hn : Text.isBlank '\n' := by decide
  rw [bodyAfter?, List.span_eq_takeWhile_dropWhile]
  simp [hc, hn, Text.lastLine, h]

theorem blockAt?_tag {tag : List Char} (ht : tag = [] ∨ tag = "json".toList) (s : List Char) :
    blockAt? (ticks ++ (tag ++ '\n' :: s)) = bodyAfter? ('\n' :: s) := by
  rw [blockAt?, Fence.after?_eq_some_iff.2 rfl]
  obtain rfl | rfl := ht <;> rfl

theorem blockAt?_object {w tag : List Char} (hw : Balanced w) (ht : tag = [] ∨ tag = "json".toList)
    (after : List Char) :
    blockAt? (Fence.block tag ('{' :: (w ++ ['}'])) ++ after) = some ('{' :: (w ++ ['}'])) := by
  have hopen : Fence.block tag ('{' :: (w ++ ['}'])) ++ after =
      ticks ++ (tag ++ '\n' :: '{' :: (w ++ '}' :: '\n' :: (ticks ++ after))) := by simp [Fence.block]
  have hclosing : untilClosing? ('\n' :: (ticks ++ after)) = some [] := by simp [untilClosing?]
  have hobject := (untilClosing?_balanced hw.braces (s := '\n' :: (ticks ++ after)) (by simp)).2
  rw [hclosing, Option.map_some, List.append_nil] at hobject
  rw [hopen, blockAt?_tag ht]
  exact bodyAfter?_break (by decide) (by simpa using hobject)

theorem strip_object (w : List Char) : Text.strip ('{' :: (w ++ ['}'])) = '{' :: (w ++ ['}']) :=
  Text.trimBy_append (by decide) (by decide) [] w []

theorem objectText_block {w before tag : List Char} (hw : Balanced w) (hb : ¬ticks <:+: before)
    (ht : tag = [] ∨ tag = "json".toList) (after : List Char) :
    objectText (before ++ '\n' :: (Fence.block tag ('{' :: (w ++ ['}'])) ++ after)) = '{' :: (w ++ ['}']) := by
  -- the answer is trimmed in front of the block and behind it, never inside
  have hblock (after : List Char) : Fence.block tag ('{' :: (w ++ ['}'])) ++ after =
      '`' :: ('`' :: '`' :: tag ++ '\n' :: '{' :: (w ++ ['}']) ++ ['\n', '`', '`'] ++ '`' :: after) := by
    simp [Fence.block, ticks]
  have hs : Text.strip (before ++ '\n' :: (Fence.block tag ('{' :: (w ++ ['}'])) ++ after)) =
      (before ++ ['\n']).dropWhile Text.isBlank ++
        (Fence.block tag ('{' :: (w ++ ['}'])) ++ Text.dropTail Text.isBlank after) := by
    rw [List.append_cons, hblock, hblock]
    exact Text.trimBy_append (by decide) (by decide) _ _ _
  have hfirst : firstBlock? (Fence.block tag ('{' :: (w ++ ['}'])) ++ Text.dropTail Text.isBlank after) =
      some ('{' :: (w ++ ['}'])) := by
    have hb := blockAt?_object hw ht (Text.dropTail Text.isBlank after)
    rw [hblock] at hb ⊢
    rw [firstBlock?, hb, Option.some_or]
  have hfront : firstBlock? ((before ++ ['\n']).dropWhile Text.isBlank ++
      (Fence.block tag ('{' :: (w ++ ['}'])) ++ Text.dropTail Text.isBlank after)) =
      some ('{' :: (w ++ ['}'])) := by
    rw [firstBlock?_append fun t ht hn h => ?_, hfirst]
    obtain rfl | ⟨u, rfl, hu⟩ := List.suffix_concat_iff.1 (ht.trans (List.dropWhile_suffix _))
    · exact hn rfl
    · rw [List.append_assoc] at h
      exact hb ((Fence.ticks_front_append h.ticks (by decide)).isInfix.trans hu.isInfix)
  refine objectText_of_selected (a := []) (k := []) hw (by simp) ?_
  rw [selected, hs, hfront]
  exact strip_object w

theorem objectText_denoted {limit : Nat} {s before after : List Char} {fs : Fields} (hs : Json.Denotes limit s fs)
    (hbrace : '{' ∉ before) (hb : ¬ticks <:+: before) (ha : ¬ticks <:+: after) :
    objectText (before ++ s ++ after) = s := by
  obtain ⟨w, hw, rfl⟩ := Json.readAt_object hs
  simpa using objectText_prose hw hbrace hb ha

/-- An object in an answer comes back as it was written, on one line or indented: in prose without a brace in
front of it, and in the first block whatever stands around it. What blanks and escapes it was written with
does not matter, as long as the object can be read from it. -/
theorem objectText_wrapped {fs : Fields} (hfs : (Json.object fs).Legible) :
    (∀ (limit : Nat) (l : Json.Layout), l.Blank →
      (Json.Denotes limit (Json.render l (.object fs)) fs ↔ (Json.object fs).nesting ≤ limit)) ∧
    ∀ limit s, Json.Denotes limit s fs →
      (∀ before after, '{' ∉ before → ¬ticks <:+: before → ¬ticks <:+: after →
        objectText (before ++ s ++ after) = s) ∧
      (∀ before tag after, ¬ticks <:+: before → tag = [] ∨ tag = "json".toList →
        objectText (before ++ '\n' :: (Fence.block tag s ++ after)) = s) ∧
      Json.ofText limit s = .ok (.object fs) := by
  refine ⟨fun limit l hl => Json.denotes_render hl hfs, fun limit s hs => ?_⟩
  refine ⟨fun before after hbrace hb ha => objectText_denoted hs hbrace hb ha, ?_, hs.ofText⟩
  obtain ⟨w, hw, rfl⟩ := Json.readAt_object hs
  exact fun before tag after hb ht => objectText_block hw hb ht after

def tangled : Fields := [("\x7d", .text "```\n\x7b\"\\"), ("\x7b", .array [.int (-7), .object []])]

theorem objectText_wrapped_tangled :
    objectText ("So: ".toList ++ Json.render .dense (.object tangled) ++ " or \x7d".toList) =
      Json.render .dense (.object tangled) ∧
    objectText ("Not \x7b\x7d but".toList ++ '\n' :: (Fence.block "json".toList
      (Json.render (.indented 2) (.object tangled)) ++ "\n```\n\x7b\x7d\n```".toList)) =
      Json.render (.indented 2) (.object tangled) := by
  have hfs : (Json.object tangled).Legible := by
    have hseven : Nat.toDigits 10 7 = ['7'] := rfl
    simp [tangled, Json.Legible, Json.LegibleFields, Json.LegibleItems, Json.text, Json.maxDigits, hseven]
  obtain ⟨hwritten, hread⟩ := objectText_wrapped hfs
  have hdense := (hwritten 3 .dense (by simp [Json.Layout.Blank, Json.Layout.dense])).2 (by decide)
  have hindented := (hwritten 3 (.indented 2)
    (by simp [Json.Layout.Blank, Json.Layout.indented, Json.Reader.isSpace])).2 (by decide)
  exact ⟨(hread _ _ hdense).1 _ _ (by decide) (by decide) (by decide),
    (hread _ _ hindented).2.1 _ _ _ (by decide) (.inr rfl)⟩

end Architecture
end CodeAudit
