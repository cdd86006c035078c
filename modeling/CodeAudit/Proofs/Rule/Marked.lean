import CodeAudit.Proofs.Rule.Down
import CodeAudit.Proofs.Text.Lines
import CodeAudit.Proofs.Text.Lowered
import Mathlib.Data.List.Forall2

/-!
Comments on unfinished work, line by line. A text joined from two has the findings of both, those of the second moved
down by the lines of the first. Each line has at most one, and it has one if a comment opens on it, blanks may follow,
then one of the markers and a colon. How the letters of a marker may be written is told here letter by letter.
-/
set_option autoImplicit false

namespace CodeAudit

theorem Text.lines_append_feed (s t : List Char) : lines (s ++ '\n' :: t) = lines s ++ lines t := by
  have hs : lines s ≠ [] := List.splitOn_ne_nil '\n' s
  have ht : lines t ≠ [] := List.splitOn_ne_nil '\n' t
  have hfeed : ∀ l ∈ lines s ++ lines t, '\n' ∉ l := fun l hl =>
    (List.mem_append.1 hl).elim not_mem_of_mem_lines not_mem_of_mem_lines
  have hjoin : unlines (lines s ++ lines t) = s ++ '\n' :: t := by
    rw [unlines_append hs ht, unlines_lines, unlines_lines]
  rw [← hjoin, lines_unlines hfeed (List.append_ne_nil_of_left_ne_nil hs _)]

namespace Rule

/-- A character that is read as a capital letter: the letter, its small form, and three more that have one of the two
as their other case. -/
inductive CountsAs : Char → Char → Prop
  | capital (l : Char) : CountsAs l l
  | small (l : Char) : CountsAs l.toLower l
  | dotted : CountsAs 'İ' 'I'
  | dotless : CountsAs 'ı' 'I'
  | kelvin : CountsAs '\u212a' 'K'

def IsMarker (word : List Char) : Prop := ∃ m ∈ markers, List.Forall₂ CountsAs word m

def BeginsMarked (s : List Char) : Prop := ∃ word back, IsMarker word ∧ s = word ++ ':' :: back

/-- The text begins with a comment that begins, but for blanks, with a marker and a colon. -/
def OpensMarked (s : List Char) : Prop :=
  ∃ opening blanks r, (opening = "//".toList ∨ opening = "/*".toList) ∧ (∀ c ∈ blanks, Text.isBlank c) ∧
    BeginsMarked r ∧ s = opening ++ (blanks ++ r)

/-- Somewhere on the line such a comment opens. -/
def Marked (line : List Char) : Prop := ∃ s, s <:+ line ∧ OpensMarked s

def IsCapital (l : Char) : Prop := 65 ≤ l.toNat ∧ l.toNat ≤ 90

section Letters
variable {c l : Char}

theorem isCapital_of_mem {m : List Char} (hm : m ∈ markers) : ∀ l ∈ m, IsCapital l := by
  have hall : ∀ m ∈ markers, m.all fun l => 65 ≤ l.toNat ∧ l.toNat ≤ 90 := by decide
  intro l hl
  have hbounds : 65 ≤ l.toNat ∧ l.toNat ≤ 90 := of_decide_eq_true (List.all_eq_true.1 (hall m hm) l hl)
  exact hbounds

theorem toUpper_eq_iff (hl : IsCapital l) : c.toUpper = l ↔ c = l ∨ c = l.toLower := by
  have hupper := Text.toNat_toUpper c
  have hlower := Text.toNat_toLower l
  obtain ⟨hlow, hhigh⟩ := hl
  rw [if_pos ⟨hlow, hhigh⟩] at hlower
  constructor
  · rintro rfl
    split at hupper
    · exact .inr (Text.eq_of_toNat (by omega))
    · exact .inl (Text.eq_of_toNat hupper.symm)
  · rintro (rfl | rfl)
    · rw [if_neg (by omega)] at hupper
      exact Text.eq_of_toNat hupper
    · rw [if_pos (by omega)] at hupper
      exact Text.eq_of_toNat (by omega)

theorem markerLetter_eq_iff (hl : IsCapital l) : markerLetter c = l ↔ CountsAs c l := by
  unfold markerLetter
  constructor
  · intro h
    split at h
    · rename_i hi
      obtain rfl := h
      obtain rfl | rfl := hi
      · exact .dotted
      · exact .dotless
    · split at h
      · rename_i hk
        obtain rfl := h
        obtain rfl := hk
        exact .kelvin
      · obtain rfl | rfl := (toUpper_eq_iff hl).1 h
        · exact .capital c
        · exact .small l
  · intro h
    have hnat := Text.toNat_toLower l
    obtain ⟨hlow, hhigh⟩ := hl
    rw [if_pos ⟨hlow, hhigh⟩] at hnat
    -- a letter and its small form are none of the three characters
    have hother (d : Char) (hd : d.toNat ≤ 122) : ¬(d = 'İ' ∨ d = 'ı') ∧ d ≠ '\u212a' := by
      refine ⟨?_, ?_⟩
      · rintro (rfl | rfl) <;> exact absurd hd (by decide)
      · rintro rfl
        exact absurd hd (by decide)
    cases h with
    | capital =>
      obtain ⟨hi, hk⟩ := hother c (by omega)
      rw [if_neg hi, if_neg hk]
      exact (toUpper_eq_iff ⟨hlow, hhigh⟩).2 (.inl rfl)
    | small =>
      obtain ⟨hi, hk⟩ := hother l.toLower (by omega)
      rw [if_neg hi, if_neg hk]
      exact (toUpper_eq_iff ⟨hlow, hhigh⟩).2 (.inr rfl)
    | dotted => rfl
    | dotless => rfl
    | kelvin => rfl

theorem CountsAs.not_blank (h : CountsAs c l) (hl : IsCapital l) : Text.isBlank c = false := by
  obtain ⟨hlow, hhigh⟩ := hl
  have hnat := Text.toNat_toLower l
  rw [if_pos ⟨hlow, hhigh⟩] at hnat
  cases h with
  | capital => simp [Text.isBlank]; omega
  | small => simp [Text.isBlank]; omega
  | dotted => rfl
  | dotless => rfl
  | kelvin => rfl

end Letters

section Lines
variable {s word m line : List Char}

theorem map_markerLetter_eq_iff (hm : ∀ l ∈ m, IsCapital l) :
    word.map markerLetter = m ↔ List.Forall₂ CountsAs word m := by
  induction word generalizing m with
  | nil =>
    cases m with
    | nil => simp
    | cons l m => simp [List.forall₂_nil_left_iff]
  | cons c word ih =>
    cases m with
    | nil => simp [List.forall₂_nil_right_iff]
    | cons l m =>
      rw [List.map_cons, List.cons.injEq, List.forall₂_cons, markerLetter_eq_iff (hm l List.mem_cons_self),
        ih fun l hl => hm l (List.mem_cons_of_mem _ hl)]

theorem IsMarker.head_not_blank (h : IsMarker word) : ∃ c r, word = c :: r ∧ Text.isBlank c = false := by
  obtain ⟨m, hm, hword⟩ := h
  have hcapital := isCapital_of_mem hm
  cases hword with
  | nil => exact absurd hm (by decide)
  | cons hc _ => exact ⟨_, _, rfl, hc.not_blank (hcapital _ List.mem_cons_self)⟩

theorem markerAt?_isSome_iff : (markerAt? s).isSome ↔ BeginsMarked s := by
  rw [markerAt?, List.findSome?_isSome_iff]
  constructor
  · rintro ⟨m, hm, hsome⟩
    rw [Option.isSome_ite] at hsome
    simp only [Bool.and_eq_true, beq_iff_eq] at hsome
    obtain ⟨hword, hcolon⟩ := hsome
    obtain ⟨back, hback⟩ := List.head?_eq_some_iff.1 hcolon
    refine ⟨s.take m.length, back, ⟨m, hm, (map_markerLetter_eq_iff (isCapital_of_mem hm)).1 hword⟩, ?_⟩
    rw [← hback, List.take_append_drop]
  · rintro ⟨word, back, ⟨m, hm, hword⟩, rfl⟩
    refine ⟨m, hm, ?_⟩
    rw [← hword.length_eq, List.take_left, List.drop_left, (map_markerLetter_eq_iff (isCapital_of_mem hm)).2 hword]
    simp

theorem dropWhile_of_beginsMarked (h : BeginsMarked s) : s.dropWhile Text.isBlank = s := by
  obtain ⟨word, back, hword, rfl⟩ := h
  obtain ⟨c, r, rfl, hc⟩ := hword.head_not_blank
  rw [List.cons_append, List.dropWhile_cons_of_neg (by simp [hc])]

/-- Behind the opening of a comment it does not matter how many of the blanks are passed over. -/
theorem markerAt?_dropWhile_isSome_iff : (markerAt? (s.dropWhile Text.isBlank)).isSome ↔
    ∃ blanks r, (∀ c ∈ blanks, Text.isBlank c) ∧ BeginsMarked r ∧ s = blanks ++ r := by
  rw [markerAt?_isSome_iff]
  constructor
  · intro h
    exact ⟨s.takeWhile Text.isBlank, s.dropWhile Text.isBlank, fun c => List.mem_takeWhile_imp, h,
      List.takeWhile_append_dropWhile.symm⟩
  · rintro ⟨blanks, r, hblanks, hr, rfl⟩
    rw [List.dropWhile_append_of_pos hblanks, dropWhile_of_beginsMarked hr]
    exact hr

theorem commentAt?_isSome_iff : (commentAt? s).isSome ↔ OpensMarked s := by
  constructor
  · intro h
    unfold commentAt? at h
    split at h
    · obtain ⟨blanks, r, hblanks, hr, rfl⟩ := markerAt?_dropWhile_isSome_iff.1 h
      exact ⟨"//".toList, blanks, r, .inl rfl, hblanks, hr, rfl⟩
    · obtain ⟨blanks, r, hblanks, hr, rfl⟩ := markerAt?_dropWhile_isSome_iff.1 h
      exact ⟨"/*".toList, blanks, r, .inr rfl, hblanks, hr, rfl⟩
    · cases h
  · rintro ⟨opening, blanks, r, rfl | rfl, hblanks, hr, rfl⟩
    · exact markerAt?_dropWhile_isSome_iff.2 ⟨blanks, r, hblanks, hr, rfl⟩
    · exact markerAt?_dropWhile_isSome_iff.2 ⟨blanks, r, hblanks, hr, rfl⟩

theorem markerIn?_isSome_iff : (markerIn? line).isSome ↔ Marked line := by
  induction line with
  | nil =>
    have hnone : ¬Marked [] := by
      rintro ⟨s, hs, hopens⟩
      obtain rfl := List.suffix_nil.1 hs
      exact absurd (commentAt?_isSome_iff.2 hopens) (by decide)
    exact iff_of_false (by decide) hnone
  | cons c line ih =>
    rw [markerIn?, Option.isSome_or, Bool.or_eq_true, commentAt?_isSome_iff, ih]
    constructor
    · rintro (hopens | ⟨s, hs, hopens⟩)
      · exact ⟨c :: line, List.suffix_rfl, hopens⟩
      · exact ⟨s, hs.trans (List.suffix_cons c line), hopens⟩
    · rintro ⟨s, hs, hopens⟩
      obtain rfl | hs := List.suffix_cons_iff.1 hs
      · exact .inl hopens
      · exact .inr ⟨s, hs, hopens⟩

example : Marked "x = 1 /* hac\u212a: later */".toList := markerIn?_isSome_iff.1 (by decide)

end Lines

section Findings
variable {path text : String} {i : Nat} {line : List Char} {f : Finding}

theorem markerFinding?_isSome_iff (path : String) (i : Nat) : (markerFinding? path i line).isSome ↔ Marked line := by
  rw [markerFinding?, Option.isSome_map, markerIn?_isSome_iff]

theorem markerFinding?_eq_some (h : markerFinding? path i line = some f) :
    f.range.start = i + 1 ∧ f.range.stop = i + 1 ∧ f.snippet = some (String.ofList (Text.strip line)) := by
  obtain ⟨m, -, rfl⟩ := Option.map_eq_some_iff.1 h
  exact ⟨rfl, rfl, rfl⟩

theorem mem_warningComments : f ∈ warningComments path text ↔
    ∃ i line, (Text.lines text.toList)[i]? = some line ∧ markerFinding? path i line = some f := by
  rw [warningComments, List.mem_filterMap]
  constructor
  · rintro ⟨⟨line, i⟩, hmem, hf⟩
    exact ⟨i, line, List.mk_mem_zipIdx_iff_getElem?.1 hmem, hf⟩
  · rintro ⟨i, line, hline, hf⟩
    exact ⟨(line, i), List.mk_mem_zipIdx_iff_getElem?.2 hline, hf⟩

end Findings

/-- What was found in a text line by line. The findings are in the order of the lines, no two on one of them; each
shows the one line that it lies on; and a line has one if it is marked. -/
structure LineByLine (text : String) (fs : List Finding) : Prop where
  ordered : fs.Pairwise fun f g => f.range.start < g.range.start
  alone : ∀ f ∈ fs, f.range.stop = f.range.start
  shown : ∀ f ∈ fs, ∃ i line, (Text.lines text.toList)[i]? = some line ∧ f.range.start = i + 1 ∧
    f.snippet = some (String.ofList (Text.strip line))
  marked : ∀ i line, (Text.lines text.toList)[i]? = some line → ((∃ f ∈ fs, f.range.start = i + 1) ↔ Marked line)

theorem warningComments_lineByLine (path text : String) : LineByLine text (warningComments path text) where
  ordered := by
    have hindices : (Text.lines text.toList).zipIdx.Pairwise fun s t => s.2 < t.2 := by
      rw [← List.pairwise_map, List.zipIdx_map_snd]
      exact List.pairwise_lt_range'
    refine List.pairwise_filterMap.2 (hindices.imp fun hlt f hf g hg => ?_)
    obtain ⟨hfstart, -⟩ := markerFinding?_eq_some hf
    obtain ⟨hgstart, -⟩ := markerFinding?_eq_some hg
    omega
  alone f hf := by
    obtain ⟨i, line, -, hf⟩ := mem_warningComments.1 hf
    obtain ⟨hstart, hstop, -⟩ := markerFinding?_eq_some hf
    rw [hstart, hstop]
  shown f hf := by
    obtain ⟨i, line, hline, hf⟩ := mem_warningComments.1 hf
    obtain ⟨hstart, -, hsnippet⟩ := markerFinding?_eq_some hf
    exact ⟨i, line, hline, hstart, hsnippet⟩
  marked i line hline := by
    rw [← markerFinding?_isSome_iff path i, Option.isSome_iff_exists]
    constructor
    · rintro ⟨f, hf, hstart⟩
      obtain ⟨j, other, hother, hf⟩ := mem_warningComments.1 hf
      obtain ⟨hj, -⟩ := markerFinding?_eq_some hf
      obtain rfl : j = i := by omega
      obtain rfl : other = line := Option.some.inj (hother.symm.trans hline)
      exact ⟨f, hf⟩
    · rintro ⟨f, hf⟩
      exact ⟨f, mem_warningComments.2 ⟨i, line, hline, hf⟩, (markerFinding?_eq_some hf).1⟩

theorem warningComments_join (path a b : String) : warningComments path (a ++ "\n" ++ b) =
    warningComments path a ++ (warningComments path b).map (Finding.down (Text.lineCount a.toList)) := by
  have hlines : Text.lines (a ++ "\n" ++ b).toList = Text.lines a.toList ++ Text.lines b.toList := by
    rw [String.toList_append, String.toList_append, List.append_assoc]
    exact Text.lines_append_feed a.toList b.toList
  rw [warningComments, warningComments, warningComments, hlines, List.zipIdx_append, List.filterMap_append,
    Nat.zero_add]
  exact congrArg _ (markerFindings_down _ path (Text.lines b.toList))

/-- Every line is looked at by itself: two texts joined by a line feed have the findings of both, those of the second
moved down by the lines of the first, and the findings in a text are those of its marked lines. -/
theorem warningComments_line_local (path : String) :
    (∀ a b : String, warningComments path (a ++ "\n" ++ b) =
        warningComments path a ++ (warningComments path b).map (Finding.down (Text.lineCount a.toList))) ∧
      ∀ text : String, LineByLine text (warningComments path text) :=
  ⟨warningComments_join path, warningComments_lineByLine path⟩

end Rule
end CodeAudit
