import CodeAudit.Proofs.Review.Gathered
import CodeAudit.Review.Course

set_option autoImplicit false

namespace CodeAudit

theorem sum_map_modify {α : Type} (g : α → Nat) (f : α → α) {l : List α} {i : Nat} {a : α}
    (h : l[i]? = some a) : ((l.modify i f).map g).sum + g a = (l.map g).sum + g (f a) := by
  induction l generalizing i with
  | nil => simp at h
  | cons b l ih =>
    cases i with
    | zero =>
      cases h
      simp
      omega
    | succ i =>
      have := ih h
      simp at this ⊢
      omega

namespace FileReview

def setStage (s : Stage) (k : Nat) (f : FileReview) : FileReview :=
  { f with batch := f.batch.modify k fun p => (p.1, s) }

/-- The pieces of the batch under way, each with the weight of its stage. -/
def weight (g : Stage → Nat) (f : FileReview) : Nat := (f.batch.map fun p => g p.2).sum

theorem weight_setStage (g : Stage → Nat) (s : Stage) {k : Nat} {f : FileReview} {p : Chunk × Stage}
    (h : f.batch[k]? = some p) : (f.setStage s k).weight g + g p.2 = f.weight g + g s :=
  sum_map_modify (fun p : Chunk × Stage => g p.2) (fun p => (p.1, s)) h

theorem mem_setStage {f : FileReview} {k : Nat} {s : Stage} {p : Chunk × Stage}
    (h : p ∈ (f.setStage s k).batch) : p ∈ f.batch ∨ ∃ s₀, f.batch[k]? = some (p.1, s₀) ∧ p.2 = s := by
  rcases List.getElem?_of_mem h with ⟨i, hi⟩
  simp only [setStage, List.getElem?_modify, Option.map_eq_map, Option.map_eq_some_iff] at hi
  rcases hi with ⟨q, hq, rfl⟩
  split
  · rename_i hk
    exact .inr ⟨q.2, hk ▸ hq, rfl⟩
  · exact .inl (List.mem_of_getElem? hq)

theorem isFailed_of_ok {f : FileReview} {fs : List Finding} (h : Reviewer.gathered f.results = .ok fs) :
    f.isFailed = false := by
  rcases Reviewer.gathered_eq_ok_iff.1 h with ⟨os, hr, -⟩
  simp [isFailed, hr, Except.toOption]

theorem isFailed_of_error {f : FileReview} {e : Failure} (h : Reviewer.gathered f.results = .error e) :
    f.isFailed = true := by
  rw [isFailed, List.any_eq_true]
  exact ⟨.error e, Reviewer.gathered_eq_error h, rfl⟩

/-- What becomes of a review whose batch is due. -/
inductive Advanced (f : FileReview) : FileReview → Prop where
  | failed {e : Failure} : Reviewer.gathered f.results = .error e →
      Advanced f { f with result := some (.error e) }
  | finished {fs : List Finding} : f.isEnded → Reviewer.gathered f.results = .ok fs → f.rest = [] →
      Advanced f { f with
        found := f.found ++ fs, batch := [], result := some (.ok (Findings.dedupe (f.found ++ fs))) }
  | next {fs : List Finding} {b : List Chunk} {rest : List (List Chunk)} :
      f.isEnded → Reviewer.gathered f.results = .ok fs → f.rest = b :: rest →
      Advanced f { f with found := f.found ++ fs, batch := b.map fun c => (c, .submitted), rest := rest }

theorem isEnded_of_isDue {f : FileReview} (h : f.isDue) (hf : f.isFailed = false) : f.isEnded := by
  simp [isDue, hf] at h
  exact h.2

theorem advanced {f : FileReview} (h : f.isDue) : f.Advanced f.advance := by
  cases hg : Reviewer.gathered f.results with
  | error e =>
    rw [advance, hg]
    exact .failed hg
  | ok fs =>
    have he := isEnded_of_isDue h (isFailed_of_ok hg)
    simp only [advance, hg]
    split
    · rename_i hr
      exact .finished he hg hr
    · rename_i b rest hr
      exact .next he hg hr

theorem mem_of_failed {f : FileReview} {e : Failure} (h : Reviewer.gathered f.results = .error e) :
    ∃ p, (p, .ended (.error e)) ∈ f.batch := by
  have he := Reviewer.gathered_eq_error h
  simp only [results, List.mem_filterMap] at he
  rcases he with ⟨⟨p, s⟩, hp, hs⟩
  cases s with
  | ended x =>
    cases hs
    exact ⟨p, hp⟩
  | submitted | waiting | calling => cases hs

@[simp] theorem advance_path (f : FileReview) : f.advance.path = f.path := by
  unfold advance
  split
  · rfl
  · dsimp only
    split <;> rfl

@[simp] theorem advance_language (f : FileReview) : f.advance.language = f.language := by
  unfold advance
  split
  · rfl
  · dsimp only
    split <;> rfl

theorem result_of_isDue {f : FileReview} (h : f.isDue) : f.result = none := by
  simp [isDue] at h
  exact h.1

theorem stage_of_isEnded {f : FileReview} (h : f.isEnded) {p : Chunk × Stage} (hp : p ∈ f.batch) :
    ∃ x, p.2 = .ended x := by
  simp [isEnded] at h
  have := h p.1 p.2 hp
  cases hs : p.2 with
  | ended x => exact ⟨x, rfl⟩
  | submitted | waiting | calling => simp [hs, Stage.result?] at this

theorem batch_of_failed {f : FileReview} (h : f.isDue) (hf : f.isFailed) : f.advance.batch = f.batch := by
  have hadv := advanced h
  generalize f.advance = g at hadv
  cases hadv with
  | failed hg => rfl
  | finished he hg hr => simp [isFailed_of_ok hg] at hf
  | next he hg hr => simp [isFailed_of_ok hg] at hf

theorem submitted_of_advance {f : FileReview} (h : f.isDue) (hf : f.isFailed = false) :
    ∀ p ∈ f.advance.batch, p.2 = .submitted := by
  have hadv := advanced h
  generalize f.advance = g at hadv
  cases hadv with
  | failed hg => simp [isFailed_of_error hg] at hf
  | finished he hg hr => simp
  | next he hg hr => simp

/-- Pieces that wait or hold a permit are under way, also when their file is done. -/
theorem advance_batch {f : FileReview} (h : f.isDue) {s : Stage} (hs : s = .waiting ∨ s = .calling)
    (k : Nat) (p : Chunk) : f.advance.batch[k]? = some (p, s) ↔ f.batch[k]? = some (p, s) := by
  have hbusy (he : f.isEnded) : f.batch[k]? ≠ some (p, s) := by
    intro hp
    rcases stage_of_isEnded he (List.mem_of_getElem? hp) with ⟨x, hx⟩
    rcases hs with rfl | rfl <;> cases hx
  have hadv := advanced h
  generalize f.advance = g at hadv
  cases hadv with
  | failed hg => rfl
  | finished he hg hr => simp [hbusy he]
  | next he hg hr =>
    simp [hbusy he]
    intro q hq
    rcases hs with rfl | rfl <;> cases hq

end FileReview

namespace Course

theorem piece?_eq_some {c : Course} {t : Ticket} {f : FileReview} {p : Chunk} {s : Stage} :
    c.piece? t = some (f, p, s) ↔ c.files[t.file]? = some f ∧ f.batch[t.piece]? = some (p, s) := by
  cases h : c.files[t.file]? with
  | none => simp [piece?, h]
  | some f' =>
    cases h' : f'.batch[t.piece]? with
    | none =>
      simp [piece?, h, h']
      intro hf
      simp [← hf, h']
    | some q =>
      simp [piece?, h, h']
      intro hf
      simp [← hf, h']

def stage? (c : Course) (t : Ticket) : Option Stage := (c.piece? t).map (·.2.2)

theorem stage?_eq_some {c : Course} {t : Ticket} {s : Stage} : c.stage? t = some s ↔
    ∃ f p, c.files[t.file]? = some f ∧ f.batch[t.piece]? = some (p, s) := by
  simp [stage?, ← piece?_eq_some]

theorem stage?_eq (c : Course) (t : Ticket) :
    c.stage? t = c.files[t.file]?.bind fun f => (f.batch[t.piece]?).map (·.2) := by
  cases h : c.files[t.file]? with
  | none => simp [stage?, piece?, h]
  | some f => cases h' : f.batch[t.piece]? <;> simp [stage?, piece?, h, h']

theorem setStage_eq (s : Stage) (t : Ticket) (c : Course) :
    setStage s t c = { c with files := c.files.modify t.file (·.setStage s t.piece) } := rfl

@[simp] theorem setStage_free (s : Stage) (t : Ticket) (c : Course) : (setStage s t c).free = c.free := rfl

@[simp] theorem setStage_line (s : Stage) (t : Ticket) (c : Course) : (setStage s t c).line = c.line := rfl

theorem stage?_setStage {c : Course} {t : Ticket} {s₀ : Stage} (h : c.stage? t = some s₀) (s : Stage)
    (u : Ticket) : (setStage s t c).stage? u = if u = t then some s else c.stage? u := by
  by_cases hu : u = t
  · rcases stage?_eq_some.1 h with ⟨f, p, hf, hp⟩
    simp [hu, stage?_eq, setStage_eq, FileReview.setStage, hf, hp]
  · rw [if_neg hu, stage?_eq, stage?_eq, setStage_eq, List.getElem?_modify]
    by_cases hf : t.file = u.file
    · have hp : t.piece ≠ u.piece := by
        intro hp
        apply hu
        cases t
        cases u
        simp_all
      cases c.files[u.file]? <;> simp [hf, hp, FileReview.setStage]
    · simp [hf]

def total (g : FileReview → Nat) (c : Course) : Nat := (c.files.map g).sum

theorem total_setStage {g : FileReview → Nat} {h : Stage → Nat}
    (hg : ∀ f k p s, f.batch[k]? = some p → g (f.setStage s k) + h p.2 = g f + h s)
    {c : Course} {t : Ticket} {s₀ : Stage} (ht : c.stage? t = some s₀) (s : Stage) :
    (setStage s t c).total g + h s₀ = c.total g + h s := by
  rcases stage?_eq_some.1 ht with ⟨f, p, hf, hp⟩
  have hw : g (f.setStage s t.piece) + h s₀ = g f + h s := hg f t.piece (p, s₀) s hp
  have hc : (setStage s t c).total g + g f = c.total g + g (f.setStage s t.piece) :=
    sum_map_modify g (FileReview.setStage s t.piece) hf
  omega

theorem total_advance (g : FileReview → Nat) {c : Course} {i : Nat} {f : FileReview}
    (hf : c.files[i]? = some f) : (c.advance i).total g + g f = c.total g + g f.advance :=
  sum_map_modify g FileReview.advance hf

theorem stage?_advance {c : Course} {i : Nat} {f : FileReview} (hf : c.files[i]? = some f) (hd : f.isDue)
    {s : Stage} (hs : s = .waiting ∨ s = .calling) (u : Ticket) :
    (c.advance i).stage? u = some s ↔ c.stage? u = some s := by
  rw [stage?_eq_some, stage?_eq_some, advance, List.getElem?_modify]
  by_cases hi : i = u.file
  · simp [← hi, hf, FileReview.advance_batch hd hs]
  · simp [hi]

/-- What a move makes of a course. -/
inductive Step (c : Course) : Move → Course → Prop where
  | take {t : Ticket} {n : Nat} : c.stage? t = some .submitted → c.free = n + 1 →
      Step c (.request t) { setStage .calling t c with free := n }
  | wait {t : Ticket} : c.stage? t = some .submitted → c.free = 0 →
      Step c (.request t) { setStage .waiting t c with line := c.line ++ [t] }
  | giveBack {t : Ticket} {r : Except Failure Outcome} : c.stage? t = some .calling → c.line = [] →
      Step c (.release t r) { setStage (.ended r) t c with free := c.free + 1 }
  | handOver {t u : Ticket} {r : Except Failure Outcome} {line : List Ticket} :
      c.stage? t = some .calling → c.line = u :: line →
      Step c (.release t r) { setStage .calling u (setStage (.ended r) t c) with line := line }
  | advance {i : Nat} {f : FileReview} : c.files[i]? = some f → f.isDue → Step c (.advance i) (c.advance i)

theorem request_of_free {c : Course} {n : Nat} (h : c.free = n + 1) (t : Ticket) :
    c.request t = { setStage .calling t c with free := n } := by rw [request, h]

theorem request_of_full {c : Course} (h : c.free = 0) (t : Ticket) :
    c.request t = { setStage .waiting t c with line := c.line ++ [t] } := by rw [request, h]

theorem release_of_empty {c : Course} (h : c.line = []) (r : Except Failure Outcome) (t : Ticket) :
    c.release r t = { setStage (.ended r) t c with free := c.free + 1 } := by
  simp [release, h]

theorem release_of_line {c : Course} {u : Ticket} {line : List Ticket} (h : c.line = u :: line)
    (r : Except Failure Outcome) (t : Ticket) :
    c.release r t = { setStage .calling u (setStage (.ended r) t c) with line := line } := by
  simp [release, h]

theorem next?_request_of {c : Course} {t : Ticket} (h : c.stage? t = some .submitted) :
    (Move.request t).next? c = some (c.request t) := by
  rcases stage?_eq_some.1 h with ⟨f, p, hf, hp⟩
  simp [Move.next?, piece?_eq_some.2 ⟨hf, hp⟩]

theorem next?_release_of {c : Course} {t : Ticket} (h : c.stage? t = some .calling)
    (r : Except Failure Outcome) : (Move.release t r).next? c = some (c.release r t) := by
  rcases stage?_eq_some.1 h with ⟨f, p, hf, hp⟩
  simp [Move.next?, piece?_eq_some.2 ⟨hf, hp⟩]

theorem step_iff {c d : Course} {m : Move} : Step c m d ↔ m.next? c = some d := by
  constructor
  · intro h
    cases h with
    | take hs hf => rw [next?_request_of hs, request_of_free hf]
    | wait hs hf => rw [next?_request_of hs, request_of_full hf]
    | giveBack hs hl => rw [next?_release_of hs, release_of_empty hl]
    | handOver hs hl => rw [next?_release_of hs, release_of_line hl]
    | advance hf hd => simp [Move.next?, hf, hd]
  · intro h
    cases m with
    | request t =>
      simp only [Move.next?] at h
      split at h
      · rename_i f p hp
        have hs : c.stage? t = some .submitted := by simp [stage?, hp]
        rw [← Option.some.inj h]
        cases hf : c.free with
        | zero => exact request_of_full hf t ▸ .wait hs hf
        | succ n => exact request_of_free hf t ▸ .take hs hf
      · cases h
    | release t r =>
      simp only [Move.next?] at h
      split at h
      · rename_i f p hp
        have hs : c.stage? t = some .calling := by simp [stage?, hp]
        rw [← Option.some.inj h]
        cases hl : c.line with
        | nil => exact release_of_empty hl r t ▸ .giveBack hs hl
        | cons u line => exact release_of_line hl r t ▸ .handOver hs hl
      · cases h
    | advance i =>
      simp only [Move.next?] at h
      split at h
      · rename_i f hf
        split at h
        · rename_i hd
          rw [← Option.some.inj h]
          exact .advance hf hd
        · cases h
      · cases h

/-- What is so of every file stays so, if it does where a piece goes on or a file does. -/
theorem Step.files {P : Nat → FileReview → Prop} {c d : Course} {m : Move} (h : Step c m d)
    (hs : ∀ i k f s, (∀ x, s = .ended x → m = .release ⟨i, k⟩ x ∧ c.files[i]? = some f) →
      P i f → P i (f.setStage s k))
    (ha : ∀ i f, f.isDue → P i f → P i f.advance)
    (hc : ∀ i f, c.files[i]? = some f → P i f) : ∀ i f, d.files[i]? = some f → P i f := by
  have hset {c' : Course} (hc' : ∀ i f, c'.files[i]? = some f → P i f) {t : Ticket} {s : Stage}
      (hx : ∀ x, s = .ended x → m = .release t x ∧ c' = c) (i : Nat) (f : FileReview)
      (hf : (setStage s t c').files[i]? = some f) : P i f := by
    simp only [setStage_eq, List.getElem?_modify, Option.map_eq_map, Option.map_eq_some_iff] at hf
    rcases hf with ⟨g, hg, rfl⟩
    split
    · rename_i hi
      subst hi
      refine hs _ _ g s (fun x h => ?_) (hc' _ g hg)
      rcases hx x h with ⟨rfl, rfl⟩
      exact ⟨rfl, hg⟩
    · exact hc' i g hg
  cases h with
  | take ht hf => exact hset hc (by simp)
  | wait ht hf => exact hset hc (by simp)
  | giveBack ht hl => exact hset hc (by simp)
  | handOver ht hl => exact hset (hset hc (by simp)) (by simp)
  | advance hf hd =>
    intro i f hf'
    simp only [Course.advance, List.getElem?_modify, Option.map_eq_map, Option.map_eq_some_iff] at hf'
    rcases hf' with ⟨g, hg, rfl⟩
    split
    · rename_i hi
      subst hi
      cases hf.symm.trans hg
      exact ha _ _ hd (hc _ _ hg)
    · exact hc i g hg

theorem Step.length {c d : Course} {m : Move} (h : Step c m d) : d.files.length = c.files.length := by
  cases h <;> simp [setStage_eq, Course.advance]

theorem piece?_setStage {c : Course} {t : Ticket} {f : FileReview} {p : Chunk} {s : Stage}
    (h : c.piece? t = some (f, p, s)) (x : Stage) (u : Ticket) :
    ∃ g y, (setStage x u c).piece? t = some (g, p, y) ∧ g.path = f.path ∧ g.language = f.language := by
  rcases piece?_eq_some.1 h with ⟨hf, hp⟩
  simp only [piece?_eq_some, setStage_eq, List.getElem?_modify, hf, Option.map_eq_map, Option.map_some,
    Option.some.injEq]
  by_cases hu : u.file = t.file
  · refine ⟨f.setStage x u.piece, if u.piece = t.piece then x else s, ⟨by simp [hu], ?_⟩, rfl, rfl⟩
    simp [FileReview.setStage, List.getElem?_modify, hp]
    split <;> rfl
  · exact ⟨f, s, ⟨by simp [hu], hp⟩, rfl, rfl⟩

theorem Step.piece {c d : Course} {m : Move} (h : Step c m d) {t : Ticket} {f : FileReview} {p : Chunk}
    (hp : c.piece? t = some (f, p, .calling)) :
    ∃ g s, d.piece? t = some (g, p, s) ∧ g.path = f.path ∧ g.language = f.language := by
  cases h with
  | take ht hf => exact piece?_setStage hp _ _
  | wait ht hf => exact piece?_setStage hp _ _
  | giveBack ht hl => exact piece?_setStage hp _ _
  | @handOver t' u x line ht hl =>
    rcases piece?_setStage hp (.ended x) t' with ⟨g, s, hg, hpath, hlang⟩
    rcases piece?_setStage hg .calling u with ⟨g', s', hg', hpath', hlang'⟩
    exact ⟨g', s', hg', hpath'.trans hpath, hlang'.trans hlang⟩
  | @advance i g hg hd =>
    rcases piece?_eq_some.1 hp with ⟨hf, hb⟩
    simp only [piece?_eq_some, Course.advance, List.getElem?_modify, hf, Option.map_eq_map,
      Option.map_some, Option.some.injEq]
    by_cases hi : i = t.file
    · subst hi
      cases hg.symm.trans hf
      refine ⟨f.advance, .calling, ⟨by simp, ?_⟩, by simp, by simp⟩
      exact (FileReview.advance_batch hd (.inr rfl) _ _).2 hb
    · exact ⟨f, .calling, ⟨by simp [hi], hb⟩, rfl, rfl⟩

/-- What a course can come to by moves that are `ok`. -/
inductive Reaches (ok : Course → Move → Prop) (c : Course) : List Move → Course → Prop where
  | start : Reaches ok c [] c
  | move {ms : List Move} {d e : Course} {m : Move} :
      Reaches ok c ms d → ok d m → m.next? d = some e → Reaches ok c (ms ++ [m]) e

theorem Reaches.length {ok : Course → Move → Prop} {c d : Course} {ms : List Move} (h : Reaches ok c ms d) :
    d.files.length = c.files.length := by
  induction h with
  | start => rfl
  | move h hok hs ih => exact (step_iff.2 hs).length.trans ih

/-- A piece ends with what some reply about it comes to. -/
def Answered (limit : Nat) (r : Reviewer) (c : Course) (m : Move) : Prop :=
  ∀ t x, m = .release t x → ∃ f p s reply, c.piece? t = some (f, p, s) ∧ reply.Regular ∧
    x = Outcome.ofReply limit r.timeout p f.path reply

/-- A piece ends with what its review can come to with this model. -/
def Faithful {σ : Type} (r : Reviewer) (w : World σ) (c : Course) (m : Move) : Prop :=
  ∀ t x, m = .release t x → ∃ f p s, c.piece? t = some (f, p, s) ∧ r.Yields w f.path f.language p x

theorem reaches_iff {c d : Course} {ms : List Move} :
    Reaches (fun _ _ => True) c ms d ↔ ms.foldlM Move.next? c = some d := by
  constructor
  · intro h
    induction h with
    | start => rfl
    | move h hok hs ih => simp [List.foldlM_append, ih, hs]
  · intro h
    induction ms using List.reverseRecOn generalizing d with
    | nil =>
      cases h
      exact .start
    | append_singleton ms m ih =>
      simp [List.foldlM_append, Option.bind_eq_some_iff] at h
      rcases h with ⟨e, he, hd⟩
      exact .move (ih he) trivial hd

end Course
end CodeAudit
