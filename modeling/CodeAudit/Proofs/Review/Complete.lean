import CodeAudit.Proofs.Review.Alone
import CodeAudit.Proofs.Review.Order
import CodeAudit.Proofs.Review.Windows

set_option autoImplicit false

namespace CodeAudit

theorem Settings.one_le_maxConcurrent {s : Settings} (h : s.problem? = none) : 1 ≤ s.maxConcurrent := by
  unfold Settings.problem? at h
  split at h
  · cases h
  · grind

def World.FindsNothing {σ : Type} (w : World σ) : Prop :=
  ∀ prompt s, ∃ t, ((w.call prompt).run s).1.reply.text? = some t ∧ Answer.issues w.nesting t = .ok []

theorem World.FindsNothing.noted {σ : Type} {w : World σ} (h : w.FindsNothing) : w.noted.FindsNothing :=
  fun prompt s => h prompt s.1

namespace Reviewer
variable {σ : Type} {s : Settings} {o : ReviewerOptions} {r : Reviewer} {w : World σ} {path text language : String}

theorem chosen_eq (choice : Option Int) (default : Int) :
    chosen choice default = if choice.getD 0 = 0 then default else choice.getD 0 := by
  cases choice with
  | none => rfl
  | some m => by_cases hm : m = 0 <;> simp [chosen, Option.filter, hm]

theorem chosenTime_of_isPositive {t : Seconds} (h : t.isPositive) (default : Seconds) :
    chosenTime (some t) default = t := by
  have hspent := isSpent_of_isPositive h
  have hzero : t.isZero = false := by
    rw [Seconds.isSpent, Bool.or_eq_false_iff] at hspent
    exact hspent.1
  simp [chosenTime, Option.filter, hzero]

theorem of_eq (s : Settings) (o : ReviewerOptions) :
    Reviewer.of s o = (Window.of (o.size.getD s.chunkSize) (o.overlap.getD s.chunkOverlap)).map fun window => {
      window
      maxConcurrent := chosen o.maxConcurrent s.maxConcurrent
      delay := o.delay.getD (.real s.batchDelay)
      timeout := chosenTime o.timeout (.real s.timeout)
      maxPromptChars := chosen o.maxPromptChars s.maxPromptChars } := by
  rw [Reviewer.of]
  cases Window.of (o.size.getD s.chunkSize) (o.overlap.getD s.chunkOverlap) <;> rfl

theorem of_eq_ok (h : Reviewer.of s o = .ok r) :
    Window.of (o.size.getD s.chunkSize) (o.overlap.getD s.chunkOverlap) = .ok r.window ∧
      r.maxConcurrent = chosen o.maxConcurrent s.maxConcurrent ∧
      r.timeout = chosenTime o.timeout (.real s.timeout) := by
  rw [of_eq] at h
  cases hwindow : Window.of (o.size.getD s.chunkSize) (o.overlap.getD s.chunkOverlap) with
  | error e =>
    rw [hwindow] at h
    cases h
  | ok window =>
    rw [hwindow] at h
    cases h
    exact ⟨rfl, rfl, rfl⟩

def prompts (r : Reviewer) (path text language : String) : List String :=
  (Chunk.split r.window text).map (r.prompt path language)

theorem prompts_ne_nil (r : Reviewer) (path text language : String) : r.prompts path text language ≠ [] := by
  have hpos := Chunk.split_length_pos r.window text
  simpa [prompts] using List.ne_nil_of_length_pos hpos

theorem yields_nothing (hr : 1 ≤ r.maxConcurrent) (ht : r.timeout.isPositive) (hw : w.FindsNothing) {c : Chunk}
    {x : Except Failure Outcome} (h : r.Yields w path language c x) : x = .ok (.found []) := by
  obtain ⟨st, rfl⟩ := h
  obtain ⟨t, htext, hissues⟩ := hw (reviewPrompt c path language r.maxPromptChars) st
  rw [reviewChunk_eq, heard_eq hr ht, Outcome.ofReply_text htext, Outcome.ofText, hissues]
  rfl

theorem asked_batches (bs : List (List Chunk)) :
    (r.rests.intercalate (bs.map fun b => b.map fun c => .asked (r.prompt path language c))).filterMap Sign.asked? =
      bs.flatten.map (r.prompt path language) := by
  rw [filterMap_asked_intercalate, List.map_map, List.map_flatten]
  congr 1
  refine List.map_congr_left fun b _ => ?_
  simp [List.filterMap_map, Function.comp_def, Sign.asked?]

theorem dedupe_nothing (pieces : List Chunk) :
    Findings.dedupe (pieces.flatMap fun _ => (Outcome.found []).findings) = [] := by
  have hnothing : (pieces.flatMap fun _ => (Outcome.found []).findings) = [] := by simp [Outcome.findings]
  rw [hnothing]
  rfl

/-- The review of a file comes to no findings, and this is what is asked: where each reply is awaited before the next
call, and where the calls of a batch are under way at once. -/
structure Asks (r : Reviewer) (w : World σ) (path text language : String) (asked : List String) : Prop where
  inOrder (st : σ) : let p := (r.reviewFile w.noted path text language).run (st, [])
    p.1 = .ok [] ∧ p.2.2.filterMap Sign.asked? = asked
  atOnce (pauses : Nat) (hw : ∀ prompt st, ((w.call prompt).run st).1.pauses ≤ pauses) (st : σ) :
    let files := [(⟨path, text⟩, language)]
    let p := (Schedule.watch r w (Schedule.turns pauses (Course.of r files))
      (Schedule.allAtOnce r files)).run (st, [])
    p.1 = ((Schedule.review r w pauses files).run st).1 ∧ p.1.results = [.ok []] ∧
      p.2.2.filterMap Sign.asked? = asked

theorem Asks.unique {as bs : List String} (ha : r.Asks w path text language as) (hb : r.Asks w path text language bs)
    (st : σ) : as = bs :=
  (ha.inOrder st).2.symm.trans (hb.inOrder st).2

theorem results_review (hr : 1 ≤ r.maxConcurrent) (ht : r.timeout.isPositive) (hw : w.FindsNothing) {pauses : Nat}
    (hpauses : ∀ prompt st, ((w.call prompt).run st).1.pauses ≤ pauses) (path text language : String) (st : σ) :
    (((Schedule.review r w pauses [(⟨path, text⟩, language)]).run st).1).results = [.ok []] := by
  obtain ⟨f, hf, hresult⟩ := Schedule.review_single hr (fun c _ x => yields_nothing hr ht hw) hpauses st
  rw [dedupe_nothing] at hresult
  rw [Schedule.results, hf, List.filterMap_cons, hresult]
  rfl

theorem asks_all (hr : 1 ≤ r.maxConcurrent) (ht : r.timeout.isPositive) (hw : w.FindsNothing)
    (path text language : String) : r.Asks w path text language (r.prompts path text language) := by
  let bs := batches r.maxConcurrent.toNat (Chunk.split r.window text)
  have hflatten : bs.flatten = Chunk.split r.window text := batches_flatten (by omega) _
  constructor
  · intro st p
    have hresult : p.1 = .ok (Findings.dedupe _) :=
      reviewFile_eq hr (fun c _ x => yields_nothing hr ht hw.noted) (st, [])
    have hunfailing : ∀ c ∈ bs.flatten, ∀ st e, ((r.reviewChunk w path language c).run st).1 ≠ .error e :=
      fun c _ st e h => by cases yields_nothing hr ht hw ⟨st, h⟩
    have hsigns : p.2.2 = [] ++ _ := reviewBatches_noted hr ht hunfailing st []
    rw [dedupe_nothing] at hresult
    rw [hsigns, List.nil_append, asked_batches, hflatten]
    exact ⟨hresult, rfl⟩
  · intro pauses hpauses st files p
    have hsame : p.1 = ((Schedule.review r w pauses files).run st).1 :=
      (Schedule.watch_run ht _ _ st []).1
    refine ⟨hsame, by rw [hsame, results_review hr ht hw hpauses], ?_⟩
    have hgo := (Schedule.goesOn_of r path text language).watch (w := w) hr ht
      (fun b hb => ⟨ne_nil_of_mem_batches hb, length_of_mem_batches hb⟩)
      (fun c _ x h => ⟨_, yields_nothing hr ht hw h⟩) (Course.filled_of r files)
      (Schedule.settled_allAtOnce r w files) (Schedule.turns pauses (Course.of r files)) st
    cases hgo with
    | inl hgo =>
      have hdone := Schedule.review_isDone hr hpauses files st
      rw [← hsame] at hdone
      exact absurd hdone hgo.not_isDone
    | inr hended =>
      obtain ⟨ess, hess, hsigns⟩ := hended.written
      rw [hsigns, asked_intercalate hess, ← List.map_flatten, hflatten]
      rfl

theorem asks_none (hr : r.maxConcurrent < 0) (w : World σ) (path text language : String) :
    r.Asks w path text language [] := by
  have hnone (pieces : List Chunk) : batches r.maxConcurrent.toNat pieces = [] := by
    rw [Int.toNat_of_nonpos (by omega), batches]
  constructor
  · intro st p
    have hp : p = (.ok [], st, []) := by
      simp only [p, reviewFile, hnone]
      rfl
    rw [hp]
    exact ⟨rfl, rfl⟩
  · intro pauses _ st files p
    have hcourse : Course.of r files =
        ⟨r.maxConcurrent.toNat, [], [⟨path, language, [], [], [], none⟩]⟩ := by
      simp [Course.of, files, hnone]
    have hstart : Schedule.allAtOnce r files = { course := Course.of r files, queue := [(0, .advance 0)] } := rfl
    have hturns : Schedule.turns pauses (Course.of r files) = 1 := by
      simp [Schedule.turns, hcourse]
    -- The review is over with its first turn, as there is no batch.
    have hp : p = ({ course := (Course.of r files).advance 0, queue := [] }, st, []) := by
      simp only [p, hturns]
      rw [hstart, hcourse]
      rfl
    rw [hp, Schedule.review, hturns, hcourse]
    exact ⟨rfl, rfl, rfl⟩

/-- What becomes of the options where the settings go together and the time to wait is positive. They are refused unless
their windows can go on over a text. With those that are not, every piece of every file is asked about once, in order,
if the number of pieces to be under way at once is not negative, and nothing is asked if it is. -/
theorem of_asks (hs : s.problem? = none) {t : Seconds} (htime : o.timeout = some t) (ht : t.isPositive) :
    let size := o.size.getD s.chunkSize
    let overlap := o.overlap.getD s.chunkOverlap
    let atOnce := o.maxConcurrent.getD 0
    (if 1 ≤ size ∧ 0 ≤ overlap ∧ overlap < size then ∃ r, Reviewer.of s o = .ok r
      else ∃ m, Reviewer.of s o = .error (.config m)) ∧
    ∀ r, Reviewer.of s o = .ok r → (r.window.size : Int) = size ∧ (r.window.overlap : Int) = overlap ∧
      ∀ {σ : Type} [Nonempty σ] (w : World σ), w.FindsNothing → ∀ path text language,
        r.Asks w path text language (if 0 ≤ atOnce then r.prompts path text language else []) ∧
          (r.Asks w path text language (r.prompts path text language) ↔ 0 ≤ atOnce) := by
  intro size overlap atOnce
  refine ⟨?_, fun r hr => ?_⟩
  · split
    · rename_i hvalid
      obtain ⟨window, hwindow, -⟩ := Window.of_valid hvalid.1 hvalid.2.1 hvalid.2.2
      exact ⟨_, by rw [of_eq, hwindow]; rfl⟩
    · rename_i hinvalid
      obtain ⟨m, hm⟩ := Window.of_invalid hinvalid
      exact ⟨m, by rw [of_eq, hm]; rfl⟩
  · obtain ⟨hwindow, hpermits, htimeout⟩ := of_eq_ok hr
    obtain ⟨hsize, hoverlap⟩ := Window.of_eq_ok hwindow
    have hdefault := Settings.one_le_maxConcurrent hs
    rw [chosen_eq] at hpermits
    rw [htime, chosenTime_of_isPositive ht] at htimeout
    rw [← htimeout] at ht
    refine ⟨hsize, hoverlap, fun {σ} _ w hw path text language => ?_⟩
    by_cases hlimit : 0 ≤ atOnce
    · have hasks := asks_all (r := r) (by split at hpermits <;> omega) ht hw path text language
      rw [if_pos hlimit]
      exact ⟨hasks, iff_of_true hasks hlimit⟩
    · have hasks := asks_none (r := r) (by split at hpermits <;> omega) w path text language
      rw [if_neg hlimit]
      exact ⟨hasks, iff_of_false (fun hall => r.prompts_ne_nil path text language
        (hall.unique hasks Classical.ofNonempty)) hlimit⟩

def noFinder : World Unit :=
  ⟨fun _ _ => (⟨.content (.text "[]"), 0⟩, ()), fun _ _ => ((), ()), Script.nesting⟩

theorem findsNothing_noFinder : noFinder.FindsNothing :=
  fun _ _ => ⟨"[]".toList, rfl, by cbv⟩

def lineByLine (atOnce : Int) : ReviewerOptions where
  size := some 1
  overlap := some 0
  maxConcurrent := some atOnce
  timeout := some (.whole 5)

theorem of_asks_two : ∃ r, Reviewer.of {} (lineByLine 2) = .ok r ∧
    r.Asks noFinder "p" "a\nb\nc" "Python" (r.prompts "p" "a\nb\nc" "Python") := by
  have hs : ({} : Settings).problem? = none := by decide +kernel
  obtain ⟨hmade, hasks⟩ := of_asks hs (o := lineByLine 2) rfl (by decide)
  obtain ⟨r, hr⟩ : ∃ r, Reviewer.of {} (lineByLine 2) = .ok r := hmade
  exact ⟨r, hr, ((hasks r hr).2.2 noFinder findsNothing_noFinder "p" "a\nb\nc" "Python").2.2 (by decide)⟩

/-- A reviewer is made with a limit of -1 on the pieces under way, and it asks about none. -/
theorem of_asks_none : ¬∀ (s : Settings) (o : ReviewerOptions) (t : Seconds), s.problem? = none →
    o.timeout = some t → t.isPositive → (∃ m, Reviewer.of s o = .error (.config m)) ∨
      ∃ r, Reviewer.of s o = .ok r ∧ ∀ w : World Unit, w.FindsNothing → ∀ path text language,
        r.Asks w path text language (r.prompts path text language) := by
  intro hall
  have hs : ({} : Settings).problem? = none := by decide +kernel
  obtain ⟨m, hm⟩ | ⟨r, hr, hasks⟩ := hall {} (lineByLine (-1)) (.whole 5) hs rfl (by decide)
  · cases hm
  · have hnone := asks_none (r := r) (by cases hr; decide) noFinder "p" "x" "Python"
    exact r.prompts_ne_nil "p" "x" "Python"
      ((hasks noFinder findsNothing_noFinder "p" "x" "Python").unique hnone ())

end Reviewer
end CodeAudit
