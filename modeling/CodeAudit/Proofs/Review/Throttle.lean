import CodeAudit.Proofs.Review.Finish

set_option autoImplicit false

namespace CodeAudit

namespace Course

/-- What is kept of the `m` permits along the moves `ms` of a course from `c₀`: none is lost, nobody waits behind
nobody, and what can happen comes to an end, when all is done and all permits are free. When all reviews are
done, those are missing that pieces still hold, and none is unless the review of a piece has failed. -/
structure Throttled (m : Int) (c₀ : Course) (ms : List Move) (c : Course) : Prop where
  permits : c.held + c.free = m
  bounded : c.held ≤ m
  moving : ∀ t, c.stage? t = some .waiting → 0 < c.held ∨ 0 < c.free
  idle : (∀ m : Move, m.next? c = none) → c.isDone ∧ c.free = m ∧
    ∀ t s, c.stage? t = some s → ∃ x, s = .ended x
  length_le : ms.length ≤ c₀.left
  missing : c.isDone → (c.free = m ↔ ∀ t, c.stage? t ≠ some .calling)
  unharmed : c.isDone → (∀ t e, .release t (.error e) ∉ ms) → c.free = m

end Course

/-- The schedule keeps to the courses of the files and the calls under way in it to the limit, and with a model whose
calls give way at most `pauses` times it comes to its end. -/
structure Schedule.Throttled {σ : Type} (r : Reviewer) (w : World σ) (pauses : Nat)
    (files : List (SourceFile × String)) (s : Schedule) : Prop where
  reached : ∃ ms, Course.Reaches (Course.Faithful r w) (Course.of r files) ms s.course
  inFlight : s.inFlight ≤ s.course.held
  peak : s.peak ≤ r.maxConcurrent
  done : (∀ prompt st, ((w.call prompt).run st).1.pauses ≤ pauses) → s.course.isDone

theorem Schedule.throttled_review {σ : Type} {r : Reviewer} (hr : 1 ≤ r.maxConcurrent) (w : World σ) (pauses : Nat)
    (files : List (SourceFile × String)) (st : σ) :
    Throttled r w pauses files ((review r w pauses files).run st).1 := by
  have h := (settled_review (w := w) hr pauses files st).orderly
  have hpeak := h.peak
  exact ⟨h.reached, h.inFlight_le, by omega, fun hw => review_isDone hr hw files st⟩

namespace Course

/-- Every course of the reviews keeps the permits, and so do the schedules: that of all files at once, and those of
one file after the other. -/
theorem permits_kept {r : Reviewer} (hr : 1 ≤ r.maxConcurrent) (files : List (SourceFile × String)) :
    (∀ {ok : Course → Move → Prop} {ms : List Move} {c : Course}, Reaches ok (of r files) ms c →
      Throttled r.maxConcurrent (of r files) ms c) ∧
    ∀ {σ : Type} (w : World σ) (pauses : Nat) (st : σ),
      Schedule.Throttled r w pauses files ((Schedule.review r w pauses files).run st).1 ∧
      List.Forall₂ (fun f s => Schedule.Throttled r w pauses [f] s) files
        ((Schedule.reviewEach r w pauses files).run st).1 := by
  constructor
  · intro ok ms c h
    have hc := (fair_of r files).reaches h
    have hp := hc.permits
    have hlength := (fair_of r files).length_le h
    refine ⟨by omega, by omega, fun t ht => by omega, fun hn => ?_, by omega, fun hd => ?_, fun hd hms => ?_⟩
    · rcases hc.stuck (by omega) (fun t ht => by simpa [next?_request_of ht] using hn (.request t))
        (fun t ht => by simpa [next?_release_of ht] using hn (.release t (.error .tooManyDigits)))
        (fun i f hf => by simpa [Move.next?, hf] using hn (.advance i)) with ⟨hd, hfree, he⟩
      exact ⟨hd, by omega, he⟩
    · rw [← held_eq_zero_iff]
      omega
    · have := held_of_unharmed hd (h.unharmed hms)
      omega
  · intro σ w pauses st
    refine ⟨Schedule.throttled_review hr w pauses files st, (Schedule.reviewEach_eq r w pauses files st).imp ?_⟩
    rintro f s ⟨st', rfl⟩
    exact Schedule.throttled_review hr w pauses [f] st'

/-- Two files and one permit: the piece of the second waits behind that of the first. -/
theorem permits_kept_waiting :
    let r : Reviewer := ⟨⟨1, 0, by decide⟩, 1, .whole 0, .whole 5, 100⟩
    ∃ ms c, Reaches (fun _ _ => True) (of r [(⟨"p", "a"⟩, "Python"), (⟨"q", "b"⟩, "Python")]) ms c ∧
      c.stage? ⟨1, 0⟩ = some .waiting ∧ (0 < c.held ∨ 0 < c.free) := by
  intro r
  have h₀ : of r [(⟨"p", "a"⟩, "Python"), (⟨"q", "b"⟩, "Python")] = {
      free := 1
      files := [{ path := "p", language := "Python", rest := [[⟨"a", 1, 1, 0, 1⟩]] },
        { path := "q", language := "Python", rest := [[⟨"b", 1, 1, 0, 1⟩]] }] } := by cbv
  have h : Reaches (fun _ _ => True) (of r [(⟨"p", "a"⟩, "Python"), (⟨"q", "b"⟩, "Python")])
      [.advance 0, .advance 1, .request ⟨0, 0⟩, .request ⟨1, 0⟩] _ :=
    reaches_iff.2 (by rw [h₀]; rfl)
  exact ⟨_, _, h, rfl, ((permits_kept (by decide) _).1 h).moving ⟨1, 0⟩ rfl⟩

/-- Two answers with a digit too many, and both reviews are done while three pieces hold all permits and another still
waits for one. -/
theorem permits_missing :
    let r : Reviewer := ⟨⟨1, 0, by decide⟩, 3, .whole 0, .whole 5, 100⟩
    let files := [(⟨"p", "a\nb\nc"⟩, "Python"), (⟨"q", "d\ne\nf"⟩, "Python")]
    ∃ ms c, Reaches (Answered Script.nesting r) (of r files) ms c ∧
      c.isDone ∧ c.held = 3 ∧ c.free = 0 ∧ c.stage? ⟨1, 2⟩ = some .waiting := by
  intro r files
  have h₀ : of r files = {
      free := 3
      files := [
        { path := "p", language := "Python", rest := [[⟨"a", 1, 1, 0, 3⟩, ⟨"b", 2, 2, 1, 3⟩, ⟨"c", 3, 3, 2, 3⟩]] },
        { path := "q", language := "Python", rest := [[⟨"d", 1, 1, 0, 3⟩, ⟨"e", 2, 2, 1, 3⟩, ⟨"f", 3, 3, 2, 3⟩]] }] } := by
    cbv
  have hask (c : Course) (t : Ticket) : Answered Script.nesting r c (.request t) := by simp [Answered]
  have hgo (c : Course) (i : Nat) : Answered Script.nesting r c (.advance i) := by simp [Answered]
  have hlost {c : Course} {t : Ticket} {f : FileReview} {p : Chunk} {s : Stage} (h : c.piece? t = some (f, p, s)) :
      Answered Script.nesting r c (.release t (.error .tooManyDigits)) := by
    intro t' x h'
    cases h'
    exact ⟨_, _, _, .content (.text Answer.longList), h, fun v hv => ⟨_, rfl⟩,
      (Outcome.ofReply_excessive (Answer.excessive_longList (by decide)) _ _ _).symm⟩
  have h₁ : Reaches (Answered Script.nesting r) (of r files) [.advance 0] _ :=
    Reaches.start.move (hgo _ 0) (by rw [h₀]; rfl)
  have h₂ := h₁.move (m := .advance 1) (hgo _ 1) rfl
  have h₃ := ((h₂.move (m := .request ⟨0, 0⟩) (hask _ _) rfl).move (m := .request ⟨0, 1⟩) (hask _ _) rfl).move
    (m := .request ⟨0, 2⟩) (hask _ _) rfl
  have h₄ := ((h₃.move (m := .request ⟨1, 0⟩) (hask _ _) rfl).move (m := .request ⟨1, 1⟩) (hask _ _) rfl).move
    (m := .request ⟨1, 2⟩) (hask _ _) rfl
  have h₅ := (h₄.move (m := .release ⟨0, 0⟩ (.error .tooManyDigits)) (hlost rfl) rfl).move (m := .advance 0) (hgo _ 0) rfl
  have h₆ := (h₅.move (m := .release ⟨1, 0⟩ (.error .tooManyDigits)) (hlost rfl) rfl).move (m := .advance 1) (hgo _ 1) rfl
  exact ⟨_, _, h₆, rfl, rfl, rfl, rfl⟩

end Course
end CodeAudit
