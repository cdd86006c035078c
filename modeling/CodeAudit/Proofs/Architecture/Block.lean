import CodeAudit.Architecture.Answer
import CodeAudit.Proofs.Review.Fence
import CodeAudit.Proofs.Text.Trimmed

/-!
The block in an answer about an architecture, told without the search for it: of all that may be read as a block it
is what opens first, then what has the most blanks behind its opening, then what has the shortest body. Its body
holds no block, and neither does any piece of a text without one.
-/
set_option autoImplicit false

namespace CodeAudit

namespace Text

/-- The shortest of the texts with `P`. -/
structure Shortest (P : List Char → Prop) (u : List Char) : Prop where
  holds : P u
  least : ∀ w, P w → u.length ≤ w.length

theorem Shortest.unique {P : List Char → Prop} {s u v : List Char} (hP : ∀ w, P w → w <+: s) (hu : Shortest P u)
    (hv : Shortest P v) : u = v := by
  have hlength := Nat.le_antisymm (hu.least v hv.holds) (hv.least u hu.holds)
  exact (List.prefix_of_prefix_length_le (hP u hu.holds) (hP v hv.holds) hlength.le).eq_of_length hlength

end Text

namespace Architecture
open Fence (ticks)
open Text (Blank Shortest)

def closing : List Char := '\n' :: ticks

/-- Blanks and a line feed, the body behind them, and the end of the block stand at the front of the text. -/
def Wraps (s blanks body : List Char) : Prop := Blank blanks ∧ blanks ++ '\n' :: (body ++ closing) <+: s

/-- A block stands at the front of the text: ticks, the tag `json` or none, and then blanks, a line feed, the body, and
the end. -/
def Opens (s blanks body : List Char) : Prop :=
  ∃ tag r, (tag = [] ∨ tag = "json".toList) ∧ s = ticks ++ (tag ++ r) ∧ Wraps r blanks body

/-- Of several ways to read blanks and a body the one with the most blanks, and the shortest body for these. -/
structure Best (R : List Char → List Char → Prop) (blanks body : List Char) : Prop where
  greedy : ∀ b x, R b x → b.length ≤ blanks.length
  lazy : Shortest (R blanks) body

structure IsFirst (s r blanks body : List Char) : Prop where
  within : r <:+ s
  leftmost : ∀ t b x, t <:+ s → Opens t b x → t.length ≤ r.length
  best : Best (Opens r) blanks body

def FirstBody (s body : List Char) : Prop := ∃ r blanks, IsFirst s r blanks body

def HasBlock (s : List Char) : Prop := ∃ r blanks body, r <:+ s ∧ Opens r blanks body

section Wraps
variable {s k u w blanks body : List Char}

theorem Wraps.break (h : Wraps s blanks body) : blanks ++ ['\n'] <+: s.takeWhile Text.isBlank := by
  obtain ⟨hblanks, k, rfl⟩ := h
  rw [List.append_assoc, List.takeWhile_append_of_pos hblanks, List.cons_append,
    List.takeWhile_cons_of_pos (by decide), List.prefix_append_right_inj, List.cons_prefix_cons]
  exact ⟨rfl, List.nil_prefix⟩

theorem wraps_append_iff (hw : Blank w) : Wraps (w ++ '\n' :: k) w body ↔ body ++ closing <+: k := by
  rw [Wraps, List.prefix_append_right_inj, List.cons_prefix_cons]
  simp [hw]

theorem begins_of_last_break (h : blanks ++ ['\n'] <+: w ++ '\n' :: k) (hk : '\n' ∉ k) : blanks <+: w := by
  obtain ⟨t, ht⟩ := h
  rw [List.append_assoc, List.singleton_append] at ht
  obtain ⟨x, rfl, -⟩ | ⟨x, rfl, hx⟩ := List.append_eq_append_iff.1 ht
  · exact List.prefix_append blanks x
  · cases x with
    | nil => rw [List.append_nil]
    | cons c x =>
      obtain ⟨-, rfl⟩ := List.cons.inj hx
      exact absurd (List.mem_append_right x List.mem_cons_self) hk

theorem closing_of_blank (hw : Blank w) (hk : ¬closing <:+: k) (h : u ++ closing <+: w ++ '\n' :: k) :
    u = w ∧ ticks <+: k := by
  obtain ⟨t, ht⟩ := h
  rw [List.append_assoc] at ht
  obtain ⟨x, rfl, hx⟩ | ⟨x, rfl, hx⟩ := List.append_eq_append_iff.1 ht
  · match x with
    | [] => exact ⟨(List.append_nil u).symm, t, (List.cons.inj hx).2⟩
    | [c] => exact absurd (List.cons.inj (List.cons.inj hx).2).1 (by decide)
    | c :: d :: x =>
      obtain rfl := (List.cons.inj (List.cons.inj hx).2).1
      exact absurd (hw '`' (by simp)) (by decide)
  · cases x with
    | nil => exact ⟨List.append_nil w, t, (List.cons.inj hx).2.symm⟩
    | cons c x =>
      obtain rfl := (List.cons.inj hx).2
      exact absurd ⟨x, t, List.append_assoc x closing t⟩ hk

theorem untilClosing?_spec (s : List Char) :
    (∃ body, untilClosing? s = some body ∧ Shortest (fun b => b ++ closing <+: s) body) ∨
      untilClosing? s = none ∧ ¬closing <:+: s := by
  induction s with
  | nil => exact .inr ⟨rfl, by decide⟩
  | cons c s ih =>
    rw [untilClosing?]
    split
    · rename_i h
      obtain ⟨rfl, hticks⟩ : c = '\n' ∧ ticks <+: s := by simpa using h
      exact .inl ⟨[], rfl, List.cons_prefix_cons.2 ⟨rfl, hticks⟩, fun w _ => Nat.zero_le _⟩
    · rename_i h
      have hfront : ¬closing <+: c :: s := by
        intro hc
        obtain ⟨rfl, hticks⟩ := List.cons_prefix_cons.1 hc
        exact h (by simpa using hticks)
      obtain ⟨body, hbody, hholds, hleast⟩ | ⟨hnone, hs⟩ := ih
      · refine .inl ⟨c :: body, by rw [hbody]; rfl, List.cons_prefix_cons.2 ⟨rfl, hholds⟩, fun w hw => ?_⟩
        cases w with
        | nil => exact absurd hw hfront
        | cons d w => exact Nat.succ_le_succ (hleast w (List.cons_prefix_cons.1 hw).2)
      · refine .inr ⟨by rw [hnone]; rfl, fun hc => ?_⟩
        exact (List.infix_cons_iff.1 hc).elim hfront hs

/-- If no end follows the last line feed of the blanks, the line feed itself begins it, and the one before it ends the
blanks that are read. -/
theorem wraps_of_not_closing (hw : Blank w) (hk : ¬closing <:+: k) :
    Wraps (w ++ '\n' :: k) blanks body ↔ blanks ++ '\n' :: body = w ∧ ticks <+: k := by
  constructor
  · rintro ⟨hblanks, h⟩
    refine closing_of_blank hw hk ?_
    rwa [List.append_assoc]
  · rintro ⟨rfl, hticks⟩
    refine ⟨fun c hc => hw c (List.mem_append_left _ hc), ?_⟩
    rw [List.append_assoc, List.prefix_append_right_inj, List.cons_append, List.cons_prefix_cons,
      List.prefix_append_right_inj]
    exact ⟨rfl, List.cons_prefix_cons.2 ⟨rfl, hticks⟩⟩

theorem ticks_of_blank (hw : Blank w) (h : ticks <+: w ++ k) : w = [] ∧ ticks <+: k := by
  cases w with
  | nil => exact ⟨rfl, h⟩
  | cons c w =>
    obtain rfl := (List.cons_prefix_cons.1 h).1
    exact absurd (hw '`' List.mem_cons_self) (by decide)

theorem ends_iff {l : List Char} (hl : '\n' ∉ l) :
    ((w ++ '\n' :: l).getLast? = some '\n' && 2 ≤ (w ++ '\n' :: l).count '\n' && ticks.isPrefixOf k) = true ↔
      l = [] ∧ '\n' ∈ w ∧ ticks <+: k := by
  have hlast : (w ++ '\n' :: l).getLast? = some '\n' ↔ l = [] := by
    cases l with
    | nil => simp
    | cons c l =>
      rw [List.getLast?_append_of_ne_nil _ (by simp), List.getLast?_cons_cons]
      simp only [reduceCtorEq, iff_false]
      exact fun h => hl (List.mem_of_getLast? h)
  have hcount : 2 ≤ (w ++ '\n' :: l).count '\n' ↔ '\n' ∈ w := by
    rw [List.count_append, List.count_cons_self, List.count_eq_zero_of_not_mem hl, ← List.count_pos_iff]
    omega
  rw [Bool.and_eq_true, Bool.and_eq_true, decide_eq_true_eq, decide_eq_true_eq, List.isPrefixOf_iff_prefix, hlast,
    hcount, and_assoc]

theorem bodyAfter?_spec (s : List Char) : (∃ blanks body, bodyAfter? s = some body ∧ Best (Wraps s) blanks body) ∨
    bodyAfter? s = none ∧ ∀ blanks body, ¬Wraps s blanks body := by
  have hs : s.takeWhile Text.isBlank ++ s.dropWhile Text.isBlank = s := List.takeWhile_append_dropWhile
  have hblank : Blank (s.takeWhile Text.isBlank) := fun c => List.mem_takeWhile_imp
  have hbreak (b x : List Char) : Wraps s b x → b ++ ['\n'] <+: s.takeWhile Text.isBlank := Wraps.break
  unfold bodyAfter?
  rw [List.span_eq_takeWhile_dropWhile]
  generalize s.takeWhile Text.isBlank = front at hs hblank hbreak ⊢
  generalize s.dropWhile Text.isBlank = rest at hs ⊢
  dsimp only
  split
  · rename_i hmem
    obtain ⟨w, l, rfl, hl⟩ := Text.exists_last_break (List.contains_iff_mem.1 hmem)
    have hw : Blank w := fun c hc => hblank c (List.mem_append_left _ hc)
    have hlblank : Blank l := fun c hc => hblank c (List.mem_append_right _ (List.mem_cons_of_mem _ hc))
    rw [List.append_assoc, List.cons_append] at hs
    rw [Text.lastLine_append w hl]
    subst hs
    obtain ⟨body, hbody, hshort⟩ | ⟨hnone, hclosing⟩ := untilClosing?_spec (l ++ rest)
    · rw [hbody]
      refine .inl ⟨w, body, rfl, fun b x h => (begins_of_last_break (hbreak b x h) hl).length_le, ?_⟩
      exact ⟨(wraps_append_iff hw).2 hshort.holds, fun x hx => hshort.least x ((wraps_append_iff hw).1 hx)⟩
    · rw [hnone]
      dsimp only
      have hwraps {b x : List Char} : Wraps (w ++ '\n' :: (l ++ rest)) b x ↔ b ++ '\n' :: x = w ∧ ticks <+: l ++ rest :=
        wraps_of_not_closing hw hclosing
      split
      · rename_i hends
        obtain ⟨rfl, hmem, hticks⟩ := (ends_iff hl).1 hends
        obtain ⟨b, x, rfl, hx⟩ := Text.exists_last_break hmem
        rw [List.dropLast_concat, Text.lastLine_append b hx]
        refine .inl ⟨b, x, rfl, fun c y h => ?_, hwraps.2 ⟨rfl, hticks⟩, fun y h => ?_⟩
        · obtain ⟨hc, -⟩ := hwraps.1 h
          refine (begins_of_last_break (k := x) ⟨y, ?_⟩ hx).length_le
          rw [← hc, List.append_assoc, List.singleton_append]
        · obtain ⟨hy, -⟩ := hwraps.1 h
          rw [(List.cons.inj (List.append_cancel_left hy)).2]
      · rename_i hends
        refine .inr ⟨rfl, fun b x h => hends ((ends_iff hl).2 ?_)⟩
        obtain ⟨rfl, hticks⟩ := hwraps.1 h
        obtain ⟨hnil, hrest⟩ := ticks_of_blank hlblank hticks
        exact ⟨hnil, by simp, hrest⟩
  · rename_i hmem
    refine .inr ⟨rfl, fun b x h => hmem (List.contains_iff_mem.2 ?_)⟩
    exact (hbreak b x h).subset (by simp)

end Wraps

section Blocks
variable {s t r u blanks body b x : List Char}

theorem Wraps.head (h : Wraps s blanks body) : ∃ c k, s = c :: k ∧ Text.isBlank c := by
  obtain ⟨hblanks, k, rfl⟩ := h
  cases blanks with
  | nil => exact ⟨_, _, rfl, by decide⟩
  | cons c blanks => exact ⟨_, _, rfl, hblanks c List.mem_cons_self⟩

theorem Wraps.append (h : Wraps s blanks body) (k : List Char) : Wraps (s ++ k) blanks body :=
  ⟨h.1, h.2.trans (List.prefix_append s k)⟩

def untagged (r : List Char) : List Char := (Text.after? "json".toList r).getD r

theorem opens_ticks_iff : Opens (ticks ++ r) blanks body ↔ Wraps (untagged r) blanks body := by
  constructor
  · rintro ⟨tag, t, htag, hr, ht⟩
    obtain rfl := List.append_cancel_left hr
    obtain rfl | rfl := htag
    · obtain ⟨c, k, rfl, hc⟩ := ht.head
      have hnone : Text.after? "json".toList (c :: k) = none := by
        rw [Text.after?, if_neg]
        intro h
        obtain rfl := (List.cons_prefix_cons.1 (List.isPrefixOf_iff_prefix.1 h)).1
        exact absurd hc (by decide)
      rwa [List.nil_append, untagged, hnone]
    · exact ht
  · intro h
    unfold untagged Text.after? at h
    split at h
    · rename_i hjson
      obtain ⟨t, rfl⟩ := List.isPrefixOf_iff_prefix.1 hjson
      exact ⟨"json".toList, t, .inr rfl, rfl, by simpa using h⟩
    · exact ⟨[], r, .inl rfl, rfl, h⟩

theorem opens_iff : Opens s blanks body ↔ ∃ r, s = ticks ++ r ∧ Wraps (untagged r) blanks body := by
  constructor
  · intro h
    obtain ⟨tag, t, -, rfl, -⟩ := id h
    exact ⟨tag ++ t, rfl, opens_ticks_iff.1 h⟩
  · rintro ⟨r, rfl, h⟩
    exact opens_ticks_iff.2 h

theorem Best.congr {R S : List Char → List Char → Prop} (hRS : ∀ b x, R b x ↔ S b x) (h : Best R b x) : Best S b x where
  greedy c y hy := h.greedy c y ((hRS c y).2 hy)
  lazy := ⟨(hRS b x).1 h.lazy.holds, fun y hy => h.lazy.least y ((hRS b y).2 hy)⟩

theorem blockAt?_spec (s : List Char) : (∃ blanks body, blockAt? s = some body ∧ Best (Opens s) blanks body) ∨
    blockAt? s = none ∧ ∀ blanks body, ¬Opens s blanks body := by
  unfold blockAt?
  cases hr : Text.after? ticks s with
  | none =>
    refine .inr ⟨rfl, fun b x h => ?_⟩
    obtain ⟨r, hs, -⟩ := opens_iff.1 h
    rw [Fence.after?_eq_some_iff.2 hs] at hr
    cases hr
  | some r =>
    obtain rfl := Fence.after?_eq_some_iff.1 hr
    obtain ⟨b, x, hx, hbest⟩ | ⟨hnone, hwraps⟩ := bodyAfter?_spec (untagged r)
    · exact .inl ⟨b, x, hx, hbest.congr fun _ _ => opens_ticks_iff.symm⟩
    · exact .inr ⟨hnone, fun b x h => hwraps b x (opens_ticks_iff.1 h)⟩

theorem hasBlock_cons {c : Char} : HasBlock (c :: s) ↔ (∃ blanks body, Opens (c :: s) blanks body) ∨ HasBlock s := by
  constructor
  · rintro ⟨r, b, x, hr, h⟩
    obtain rfl | hr := List.suffix_cons_iff.1 hr
    · exact .inl ⟨b, x, h⟩
    · exact .inr ⟨r, b, x, hr, h⟩
  · rintro (⟨b, x, h⟩ | ⟨r, b, x, hr, h⟩)
    · exact ⟨c :: s, b, x, List.suffix_rfl, h⟩
    · exact ⟨r, b, x, hr.trans (List.suffix_cons c s), h⟩

theorem firstBlock?_spec (s : List Char) : (∃ body, firstBlock? s = some body ∧ FirstBody s body) ∨
    firstBlock? s = none ∧ ¬HasBlock s := by
  induction s with
  | nil =>
    refine .inr ⟨rfl, ?_⟩
    rintro ⟨r, b, x, hr, h⟩
    obtain rfl := List.suffix_nil.1 hr
    obtain ⟨t, ht, -⟩ := opens_iff.1 h
    cases ht
  | cons c s ih =>
    rw [firstBlock?]
    obtain ⟨b, x, hx, hbest⟩ | ⟨hnone, hfront⟩ := blockAt?_spec (c :: s)
    · rw [hx]
      exact .inl ⟨x, rfl, c :: s, b, List.suffix_rfl, fun t _ _ ht _ => ht.length_le, hbest⟩
    · rw [hnone, Option.none_or]
      obtain ⟨x, hx, r, b, hr, hleft, hbest⟩ | ⟨hnone, hs⟩ := ih
      · refine .inl ⟨x, hx, r, b, hr.trans (List.suffix_cons c s), fun t d y ht hy => ?_, hbest⟩
        obtain rfl | ht := List.suffix_cons_iff.1 ht
        · exact absurd hy (hfront d y)
        · exact hleft t d y ht hy
      · refine .inr ⟨hnone, fun h => ?_⟩
        obtain ⟨b, x, h⟩ | h := hasBlock_cons.1 h
        · exact hfront b x h
        · exact hs h

theorem Wraps.begins (h : Wraps s b x) : b <+: s ∧ x <+: s.drop (b.length + 1) := by
  obtain ⟨-, k, rfl⟩ := h
  rw [List.append_assoc, ← List.drop_drop, List.drop_left]
  exact ⟨List.prefix_append _ _, closing ++ k, by simp⟩

theorem Best.unique {c y : List Char} (h : Best (Opens s) b x) (h' : Best (Opens s) c y) : x = y := by
  obtain ⟨r, rfl, -⟩ := opens_iff.1 h.lazy.holds
  replace h := h.congr fun _ _ => opens_ticks_iff
  replace h' := h'.congr fun _ _ => opens_ticks_iff
  have hlength : b.length = c.length :=
    Nat.le_antisymm (h'.greedy b x h.lazy.holds) (h.greedy c y h'.lazy.holds)
  obtain rfl : b = c := (List.prefix_of_prefix_length_le h.lazy.holds.begins.1 h'.lazy.holds.begins.1
    hlength.le).eq_of_length hlength
  exact h.lazy.unique (fun w hw => hw.begins.2) h'.lazy

theorem FirstBody.unique {y : List Char} (h : FirstBody s x) (h' : FirstBody s y) : x = y := by
  obtain ⟨r, b, hr⟩ := h
  obtain ⟨t, c, ht⟩ := h'
  have hlength : r.length = t.length := Nat.le_antisymm (ht.leftmost r b x hr.within hr.best.lazy.holds)
    (hr.leftmost t c y ht.within ht.best.lazy.holds)
  obtain rfl := (List.suffix_of_suffix_length_le hr.within ht.within hlength.le).eq_of_length hlength
  exact hr.best.unique ht.best

theorem FirstBody.hasBlock (h : FirstBody s x) : HasBlock s := by
  obtain ⟨r, b, hr⟩ := h
  exact ⟨r, b, x, hr.within, hr.best.lazy.holds⟩

theorem firstBlock?_eq_some_iff : firstBlock? s = some body ↔ FirstBody s body := by
  obtain ⟨x, hx, hfirst⟩ | ⟨hnone, hs⟩ := firstBlock?_spec s
  · rw [hx, Option.some.injEq]
    constructor
    · rintro rfl
      exact hfirst
    · exact hfirst.unique
  · rw [hnone]
    exact iff_of_false nofun fun h => hs h.hasBlock

theorem firstBlock?_eq_none_iff : firstBlock? s = none ↔ ¬HasBlock s := by
  obtain ⟨x, hx, hfirst⟩ | ⟨hnone, hs⟩ := firstBlock?_spec s
  · rw [hx]
    exact iff_of_false nofun fun h => h hfirst.hasBlock
  · exact iff_of_true hnone hs

theorem HasBlock.mono (h : HasBlock u) (hu : u <:+: s) : HasBlock s := by
  obtain ⟨r, b, x, ⟨front, rfl⟩, tag, t, htag, rfl, ht⟩ := h
  obtain ⟨before, after, rfl⟩ := hu
  refine ⟨ticks ++ (tag ++ (t ++ after)), b, x, ⟨before ++ front, ?_⟩, tag, t ++ after, htag, rfl, ht.append after⟩
  simp

theorem HasBlock.ends (h : HasBlock s) : closing <:+: s := by
  obtain ⟨r, b, x, ⟨front, rfl⟩, tag, t, -, rfl, -, after, rfl⟩ := h
  exact ⟨front ++ (ticks ++ (tag ++ (b ++ '\n' :: x))), after, by simp⟩

/-- The body is cut where a block could first end, so that none can end inside it. -/
theorem FirstBody.not_hasBlock (h : FirstBody s body) : ¬HasBlock body := by
  intro hbody
  obtain ⟨r, b, hr⟩ := h
  obtain ⟨y, z, rfl⟩ := hbody.ends
  obtain ⟨tag, t, htag, rfl, hblanks, k, rfl⟩ := hr.best.lazy.holds
  have hless := hr.best.lazy.least y ⟨tag, _, htag, rfl, hblanks, z ++ (closing ++ k), by simp⟩
  rw [List.length_append, List.length_append] at hless
  have hpos : 0 < closing.length := by decide
  omega

end Blocks

end Architecture
end CodeAudit
