import CodeAudit.Proofs.Architecture.Answer
import CodeAudit.Proofs.Json.Quotes

/-!
The object cut out of an answer. From the first brace on it is the shortest text in which the braces outside of
literals are even, and all that follows if there is none; cut once more it stays as it is.
-/
set_option autoImplicit false

namespace CodeAudit.Architecture
open Text (Blank Shortest Tight)

def outside (p : Json.Place) : List Char → List Char
  | [] => []
  | c :: s => if p = .out then c :: outside (p.step c) s else outside (p.step c) s

def EvenBraces (s : List Char) : Prop := (outside .out s).count '{' = (outside .out s).count '}'

/-- What of an answer is searched: the body of its first block, or all of it between the blanks at its ends. -/
def Selected (answer text : List Char) : Prop :=
  FirstBody (Text.strip answer) text ∨ ¬HasBlock (Text.strip answer) ∧ text = Text.strip answer

/-- The shortest of the texts with `P` that `s` begins with; `s` itself if it begins with none. -/
def Cut (P : List Char → Prop) (s u : List Char) : Prop :=
  Shortest (fun w => w <+: s ∧ P w) u ∨ (∀ w, w <+: s → ¬P w) ∧ u = s

section Cuts
variable {P Q : List Char → Prop} {s u v : List Char} {c : Char}

theorem Cut.begins (h : Cut P s u) : u <+: s := by
  obtain h | ⟨-, rfl⟩ := h
  · exact h.holds.1
  · exact List.prefix_rfl

theorem Cut.unique (h : Cut P s u) (h' : Cut P s v) : u = v := by
  obtain h | ⟨hnone, rfl⟩ := h
  · obtain h' | ⟨hnone, -⟩ := h'
    · exact h.unique (fun w hw => hw.1) h'
    · exact absurd h.holds.2 (hnone u h.holds.1)
  · obtain h' | ⟨-, rfl⟩ := h'
    · exact absurd h'.holds.2 (hnone v h'.holds.1)
    · rfl

theorem Cut.self (h : Cut P s u) : Cut P u u := by
  obtain h | ⟨hnone, rfl⟩ := h
  · exact .inl ⟨⟨List.prefix_rfl, h.holds.2⟩, fun w hw => h.least w ⟨hw.1.trans h.holds.1, hw.2⟩⟩
  · exact .inr ⟨hnone, rfl⟩

theorem Cut.cons (hc : ¬P []) (hPQ : ∀ w, P (c :: w) ↔ Q w) (h : Cut Q s u) : Cut P (c :: s) (c :: u) := by
  obtain h | ⟨hnone, rfl⟩ := h
  · refine .inl ⟨⟨List.cons_prefix_cons.2 ⟨rfl, h.holds.1⟩, (hPQ u).2 h.holds.2⟩, fun w hw => ?_⟩
    cases w with
    | nil => exact absurd hw.2 hc
    | cons d w =>
      obtain ⟨rfl, hw'⟩ := List.cons_prefix_cons.1 hw.1
      exact Nat.succ_le_succ (h.least w ⟨hw', (hPQ w).1 hw.2⟩)
  · refine .inr ⟨fun w hw hPw => ?_, rfl⟩
    cases w with
    | nil => exact hc hPw
    | cons d w =>
      obtain ⟨rfl, hw'⟩ := List.cons_prefix_cons.1 hw
      exact hnone w hw' ((hPQ w).1 hPw)

end Cuts

section Braces
variable {s u v w b : List Char} {d : Nat} {p : Json.Place}

theorem outside_append (p : Json.Place) (u v : List Char) :
    outside p (u ++ v) = outside p u ++ outside (p.run u) v := by
  induction u generalizing p with
  | nil => rfl
  | cons c u ih =>
    rw [List.cons_append, outside, outside, Json.Place.run, ih]
    split <;> rfl

theorem outside_subset (p : Json.Place) (s : List Char) : outside p s ⊆ s := by
  induction s generalizing p with
  | nil => exact List.nil_subset _
  | cons c s ih =>
    rw [outside]
    split
    · exact List.cons_subset_cons c (ih _)
    · exact List.subset_cons_of_subset c (ih _)

def Closes (d : Nat) (p : Json.Place) (s : List Char) : Prop :=
  d + (outside p s).count '{' = (outside p s).count '}'

theorem closes_opening : Closes d .out ('{' :: s) ↔ Closes (d + 1) .out s := by
  have hout : outside .out ('{' :: s) = '{' :: outside .out s := rfl
  rw [Closes, Closes, hout, List.count_cons_self, List.count_cons_of_ne (by decide)]
  omega

theorem closes_closing (hd : 0 < d) : Closes d .out ('}' :: s) ↔ Closes (d - 1) .out s := by
  have hout : outside .out ('}' :: s) = '}' :: outside .out s := rfl
  rw [Closes, Closes, hout, List.count_cons_self, List.count_cons_of_ne (by decide)]
  omega

theorem evenBraces_cons : EvenBraces ('{' :: s) ↔ Closes 1 .out s := by
  rw [← closes_opening, Closes, Nat.zero_add, EvenBraces]

theorem evenBraces_append_blank (hb : Blank b) : EvenBraces (s ++ b) ↔ EvenBraces s := by
  have hcount (p : Json.Place) (c : Char) (hc : Text.isBlank c = false) : (outside p b).count c = 0 :=
    List.count_eq_zero_of_not_mem fun hmem => Bool.eq_false_iff.1 hc (hb c (outside_subset p b hmem))
  rw [EvenBraces, EvenBraces, outside_append, List.count_append, List.count_append, hcount _ '{' (by decide),
    hcount _ '}' (by decide), Nat.add_zero, Nat.add_zero]

/-- How far one has read at a place with `d` braces open. -/
def Reading.of (d : Nat) (p : Json.Place) : Reading := ⟨d, p ≠ .out, p = .escape⟩

/-- A character either closes the last open brace or leads on, to where it takes as much to close the rest. -/
theorem Reading.of_next (hd : 0 < d) (p : Json.Place) (c : Char) :
    (Reading.of d p).closes c ∧ Closes d p [c] ∨
      (Reading.of d p).closes c = false ∧ ∃ e, 0 < e ∧ (Reading.of d p).next c = .of e (p.step c) ∧
        ∀ w, Closes d p (c :: w) ↔ Closes e (p.step c) w := by
  cases p with
  | out =>
    by_cases hlast : c = '}' ∧ d = 1
    · obtain ⟨rfl, rfl⟩ := hlast
      exact .inl ⟨rfl, rfl⟩
    refine .inr ⟨by simpa [Reading.of, closes] using hlast, ?_⟩
    by_cases hquote : c = '"'
    · subst hquote
      exact ⟨d, hd, by simp [Reading.of, next, Json.Place.step], fun w => by simp [Closes, outside]⟩
    by_cases hopen : c = '{'
    · subst hopen
      exact ⟨d + 1, Nat.succ_pos d, by simp [Reading.of, next, Json.Place.step], fun w => closes_opening⟩
    by_cases hclose : c = '}'
    · subst hclose
      have hne : d ≠ 1 := fun h => hlast ⟨rfl, h⟩
      exact ⟨d - 1, by omega, by simp [Reading.of, next, Json.Place.step], fun w => closes_closing hd⟩
    · refine ⟨d, hd, by simp [Reading.of, next, Json.Place.step, hquote, hopen, hclose], fun w => ?_⟩
      simp [Closes, outside, List.count_cons_of_ne, hopen, hclose]
  | text =>
    refine .inr ⟨by simp [Reading.of, closes], d, hd, ?_, fun w => by simp [Closes, outside]⟩
    by_cases hquote : c = '"'
    · subst hquote
      simp [Reading.of, next, Json.Place.step]
    by_cases hescape : c = '\\'
    · subst hescape
      simp [Reading.of, next, Json.Place.step]
    · simp [Reading.of, next, Json.Place.step, hquote, hescape]
  | escape =>
    refine .inr ⟨by simp [Reading.of, closes], d, hd, ?_, fun w => by simp [Closes, outside]⟩
    simp [Reading.of, next, Json.Place.step]

theorem not_closes_nil (hd : 0 < d) : ¬Closes d p [] := by
  unfold Closes
  rw [outside, List.count_nil, List.count_nil]
  omega

theorem untilClosed_cut (hd : 0 < d) (p : Json.Place) (s : List Char) :
    Cut (Closes d p) s (untilClosed (.of d p) s) := by
  induction s generalizing d p with
  | nil =>
    refine .inr ⟨fun w hw => ?_, rfl⟩
    obtain rfl := List.prefix_nil.1 hw
    exact not_closes_nil hd
  | cons c s ih =>
    rw [untilClosed]
    obtain ⟨hcloses, hc⟩ | ⟨hopen, e, he, hnext, hrest⟩ := Reading.of_next hd p c
    · rw [if_pos hcloses]
      refine .inl ⟨⟨List.cons_prefix_cons.2 ⟨rfl, List.nil_prefix⟩, hc⟩, fun w hw => ?_⟩
      exact List.length_pos_iff.2 fun hnil => not_closes_nil hd (hnil ▸ hw.2)
    · rw [if_neg (Bool.eq_false_iff.1 hopen), hnext]
      exact (ih he (p.step c)).cons (not_closes_nil hd) hrest

/-- From an opening brace on, the first that closes it ends the shortest text with even braces. -/
theorem untilClosed_brace (s : List Char) :
    Cut (fun w => w ≠ [] ∧ EvenBraces w) ('{' :: s) (untilClosed ⟨0, false, false⟩ ('{' :: s)) := by
  have hrest (w : List Char) : '{' :: w ≠ [] ∧ EvenBraces ('{' :: w) ↔ Closes 1 .out w := by simp [evenBraces_cons]
  have hcut : Cut (Closes 1 .out) s (untilClosed (.of 1 .out) s) := untilClosed_cut Nat.one_pos .out s
  exact hcut.cons (fun h => h.1 rfl) hrest

theorem Cut.append_blank {P : List Char → Prop} (h : Cut P s u) (hP : ∀ b, Blank b → P (s ++ b) → P s) (hb : Blank b) :
    Shortest (fun w => w <+: s ++ b ∧ P w) u ∨ (∀ w, w <+: s ++ b → ¬P w) ∧ u = s := by
  obtain h | ⟨hnone, rfl⟩ := h
  · refine .inl ⟨⟨h.holds.1.trans (List.prefix_append s b), h.holds.2⟩, fun w hw => ?_⟩
    obtain hlength | hlength := Nat.le_total w.length s.length
    · exact h.least w ⟨List.prefix_of_prefix_length_le hw.1 (List.prefix_append s b) hlength, hw.2⟩
    · exact h.holds.1.length_le.trans hlength
  · refine .inr ⟨fun w hw hPw => ?_, rfl⟩
    obtain hlength | hlength := Nat.le_total w.length u.length
    · exact hnone w (List.prefix_of_prefix_length_le hw (List.prefix_append u b) hlength) hPw
    · obtain ⟨c, rfl⟩ := List.prefix_of_prefix_length_le (List.prefix_append u b) hw hlength
      have hc : c <+: b := (List.prefix_append_right_inj u).1 hw
      exact hnone u List.prefix_rfl (hP c (fun d hd => hb d (hc.subset hd)) hPw)

end Braces

section Selected
variable {answer text : List Char}

theorem selected_eq (h : Selected answer text) : selected answer = Text.strip text := by
  unfold selected
  dsimp only
  obtain h | ⟨hnone, rfl⟩ := h
  · rw [firstBlock?_eq_some_iff.2 h]
  · rw [firstBlock?_eq_none_iff.2 hnone]
    exact (Text.tight_strip answer).strip.symm

theorem existsUnique_selected (answer : List Char) : ∃! text, Selected answer text := by
  obtain ⟨body, -, hbody⟩ | ⟨-, hnone⟩ := firstBlock?_spec (Text.strip answer)
  · refine ⟨body, .inl hbody, fun text h => ?_⟩
    obtain h | ⟨hnone, -⟩ := h
    · exact h.unique hbody
    · exact absurd hbody.hasBlock hnone
  · refine ⟨Text.strip answer, .inr ⟨hnone, rfl⟩, fun text h => ?_⟩
    obtain h | ⟨-, h⟩ := h
    · exact absurd h.hasBlock hnone
    · exact h

theorem not_hasBlock_selected (answer : List Char) : ¬HasBlock (selected answer) := by
  obtain ⟨text, htext, -⟩ := existsUnique_selected answer
  rw [selected_eq htext]
  obtain h | ⟨hnone, rfl⟩ := htext
  · exact fun hblock => h.not_hasBlock (hblock.mono (Text.trimBy_within _ text))
  · rwa [(Text.tight_strip answer).strip]

end Selected

section Object
variable {answer text before tail : List Char}

theorem objectText_cases (answer : List Char) :
    '{' ∉ selected answer ∧ objectText answer = selected answer ∨
      ∃ before tail, selected answer = before ++ '{' :: tail ∧ '{' ∉ before ∧
        Cut (fun w => w ≠ [] ∧ EvenBraces w) ('{' :: tail) (objectText answer) := by
  by_cases hmem : '{' ∈ selected answer
  · obtain ⟨before, tail, h, hbefore⟩ := List.eq_append_cons_of_mem hmem
    rw [objectText_of_first_brace h hbefore]
    exact .inr ⟨before, tail, h, hbefore, untilClosed_brace tail⟩
  · exact .inl ⟨hmem, objectText_eq_selected hmem⟩

theorem cons_of_cut {u : List Char} (h : Cut (fun w => w ≠ [] ∧ EvenBraces w) ('{' :: tail) u) : ∃ r, u = '{' :: r := by
  obtain h | ⟨-, rfl⟩ := h
  · obtain ⟨c, r, rfl⟩ := List.exists_cons_of_ne_nil h.holds.2.1
    obtain ⟨rfl, -⟩ := List.cons_prefix_cons.1 h.holds.1
    exact ⟨r, rfl⟩
  · exact ⟨tail, rfl⟩

theorem not_isBlank_of_shortest {u : List Char} {c : Char}
    (h : Shortest (fun w => w <+: '{' :: tail ∧ w ≠ [] ∧ EvenBraces w) u) (hc : c ∈ u.getLast?) :
    Text.isBlank c = false := by
  refine Bool.eq_false_iff.2 fun hblank => ?_
  obtain ⟨x, rfl⟩ := List.getLast?_eq_some_iff.1 hc
  obtain ⟨hbegins, -, heven⟩ := h.holds
  have hne : x ≠ [] := by
    rintro rfl
    obtain ⟨rfl, -⟩ := List.cons_prefix_cons.1 hbegins
    exact absurd hblank (by decide)
  have hless := h.least x ⟨(List.prefix_append x [c]).trans hbegins, hne,
    (evenBraces_append_blank (by simpa [Blank] using hblank)).1 heven⟩
  rw [List.length_append, List.length_singleton] at hless
  omega

theorem tight_selected (answer : List Char) : Tight (selected answer) := by
  obtain ⟨text, htext, -⟩ := existsUnique_selected answer
  rw [selected_eq htext]
  exact Text.tight_strip text

theorem tight_objectText (answer : List Char) : Tight (objectText answer) := by
  have htight := tight_selected answer
  obtain ⟨-, h⟩ | ⟨before, tail, h, -, hcut⟩ := objectText_cases answer
  · rwa [h]
  · obtain ⟨r, hr⟩ := cons_of_cut hcut
    refine ⟨fun c hc => ?_, fun c hc => ?_⟩
    · rw [hr] at hc
      cases hc
      decide
    · obtain hcut | ⟨-, hall⟩ := hcut
      · exact not_isBlank_of_shortest hcut hc
      · refine htight.back c ?_
        rw [h, List.getLast?_append_of_ne_nil _ (List.cons_ne_nil '{' tail), ← hall]
        exact hc

theorem objectText_within_selected (answer : List Char) : objectText answer <:+: selected answer := by
  obtain ⟨-, h⟩ | ⟨before, tail, h, -, hcut⟩ := objectText_cases answer
  · rw [h]
  · rw [h]
    exact hcut.begins.isInfix.trans (List.suffix_append before _).isInfix

theorem selected_objectText (answer : List Char) : selected (objectText answer) = objectText answer := by
  have hstrip : Text.strip (objectText answer) = objectText answer := (tight_objectText answer).strip
  have hnone : ¬HasBlock (objectText answer) := fun h =>
    not_hasBlock_selected answer (h.mono (objectText_within_selected answer))
  have hselected : Selected (objectText answer) (objectText answer) := by
    rw [← hstrip] at hnone
    exact .inr ⟨hnone, hstrip.symm⟩
  rw [selected_eq hselected, hstrip]

theorem objectText_objectText (answer : List Char) : objectText (objectText answer) = objectText answer := by
  obtain ⟨hmem, h⟩ | ⟨before, tail, -, -, hcut⟩ := objectText_cases answer
  · rw [objectText_of_not_brace (h ▸ hmem), selected_objectText]
  · obtain ⟨r, hr⟩ := cons_of_cut hcut
    have hself := hcut.self
    have hselected : selected (objectText answer) = [] ++ objectText answer := selected_objectText answer
    rw [hr] at hself hselected ⊢
    rw [objectText_of_first_brace hselected List.not_mem_nil]
    exact (untilClosed_brace r).unique hself

/-- An answer is only cut, and what is cut out of it is cut no further. What is searched for the object is one text; if
it has a brace, then from the first one on the object is the shortest text with even braces, or all up to the blanks at
the end if there is none. -/
theorem objectText_cuts (answer : List Char) :
    objectText answer <:+: answer ∧ objectText (objectText answer) = objectText answer ∧
    (∃! text, Selected answer text) ∧
    ∀ text, Selected answer text → '{' ∈ text →
      (objectText answer).head? = some '{' ∧
      ∃ before tail, text = before ++ '{' :: tail ∧ '{' ∉ before ∧
        (Shortest (fun w => w <+: '{' :: tail ∧ w ≠ [] ∧ EvenBraces w) (objectText answer) ∨
          (∀ w, w <+: '{' :: tail → ¬(w ≠ [] ∧ EvenBraces w)) ∧
            ∃ front, Text.strip text = front ++ objectText answer ∧ '{' ∉ front) := by
  refine ⟨objectText_within answer, objectText_objectText answer, existsUnique_selected answer, ?_⟩
  intro text htext hmem
  have hselected := selected_eq htext
  obtain ⟨-, a, b, htrim, ha, hb⟩ := Text.strip_eq_iff.1 (rfl : Text.strip text = Text.strip text)
  have hbrace (c : List Char) (hc : Blank c) : '{' ∉ c := fun h => absurd (hc '{' h) (by decide)
  obtain ⟨hnone, -⟩ | ⟨before, tail, h, hbefore, hcut⟩ := objectText_cases answer
  · rw [hselected] at hnone
    rw [htrim] at hmem
    simp [hbrace a ha, hbrace b hb, hnone] at hmem
  · obtain ⟨r, hr⟩ := cons_of_cut hcut
    refine ⟨by rw [hr]; rfl, a ++ before, tail ++ b, ?_, ?_, ?_⟩
    · rw [htrim, ← hselected, h]
      simp
    · simp [hbrace a ha, hbefore]
    · have hblanks (c : List Char) (hc : Blank c) (heven : '{' :: tail ++ c ≠ [] ∧ EvenBraces ('{' :: tail ++ c)) :
          '{' :: tail ≠ [] ∧ EvenBraces ('{' :: tail) :=
        ⟨List.cons_ne_nil '{' tail, (evenBraces_append_blank hc).1 heven.2⟩
      obtain hshort | ⟨hnone, hall⟩ := hcut.append_blank hblanks hb
      · exact .inl hshort
      · exact .inr ⟨hnone, before, by rw [hall, ← hselected, h], hbefore⟩

/-- The first block is searched and not the prose in front of it, and a brace in a literal closes nothing. -/
theorem objectText_cuts_literal :
    let text := "\x7b\"a\": \"\x7d\"\x7d or".toList
    let answer := "As \x7b\x7d:\n```json\n".toList ++ text ++ "\n```".toList
    Selected answer text ∧ (objectText answer).head? = some '{' ∧
      objectText answer = "\x7b\"a\": \"\x7d\"\x7d".toList ∧ objectText (objectText answer) = objectText answer := by
  intro text answer
  have hselected : Selected answer text := .inl (firstBlock?_eq_some_iff.1 (by decide +kernel))
  obtain ⟨-, hagain, -, hcut⟩ := objectText_cuts answer
  exact ⟨hselected, (hcut text hselected (by decide +kernel)).1, by decide +kernel, hagain⟩

end Object

end CodeAudit.Architecture
