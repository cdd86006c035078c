import CodeAudit.Proofs.Review.Turns

/-!
A schedule with turns enough comes to its end. Each turn takes something off what is left to do, and a
schedule with nothing left in its queue has all its reviews done.
-/
set_option autoImplicit false

namespace CodeAudit
variable {σ : Type}

def Stage.pending (pauses : Nat) : Stage → Nat
  | .waiting => pauses + 10
  | _ => 0

namespace FileReview

/-- What is left to do about the pieces that wait and those to come, with a model whose calls give way at
most `pauses` times. -/
def pending (pauses : Nat) (f : FileReview) : Nat :=
  (if f.result.isNone then (pauses + 11) * f.rest.flatten.length else 0) +
    f.weight (Stage.pending pauses)

theorem pending_setStage (pauses : Nat) (f : FileReview) (k : Nat) (p : Chunk × Stage) (s : Stage)
    (h : f.batch[k]? = some p) :
    (f.setStage s k).pending pauses + p.2.pending pauses = f.pending pauses + s.pending pauses := by
  have hw := weight_setStage (Stage.pending pauses) s h
  have hr : (f.setStage s k).rest = f.rest := rfl
  have hres : (f.setStage s k).result = f.result := rfl
  unfold pending
  rw [hr, hres]
  omega

theorem pending_advance (pauses : Nat) {f : FileReview} (h : f.isDue) :
    f.advance.pending pauses + (if f.isFailed then 0 else (pauses + 11) * f.advance.batch.length) ≤
      f.pending pauses := by
  have hn := result_of_isDue h
  have hadv := advanced h
  generalize f.advance = g at hadv
  cases hadv with
  | failed hg => simp [pending, isFailed_of_error hg, weight]
  | finished he hg hr => simp [pending, isFailed_of_ok hg, weight]
  | next he hg hr =>
    simp [pending, isFailed_of_ok hg, weight, hn, hr, Stage.pending, Function.comp_def, Nat.mul_add]
    omega

end FileReview

namespace Course

variable (pauses : Nat) {c : Course} {t : Ticket}

def pending (pauses : Nat) (c : Course) : Nat := c.total (·.pending pauses)

theorem pending_setStage {s₀ : Stage} (ht : c.stage? t = some s₀) (s : Stage) :
    (setStage s t c).pending pauses + s₀.pending pauses = c.pending pauses + s.pending pauses :=
  total_setStage (FileReview.pending_setStage pauses) ht s

theorem setStage_of_none (h : c.stage? t = none) (s : Stage) : setStage s t c = c := by
  have hfiles : c.files.modify t.file (·.setStage s t.piece) = c.files := by
    apply List.ext_getElem?
    intro i
    rw [List.getElem?_modify]
    split
    · rename_i hi
      subst hi
      cases hf : c.files[t.file]? with
      | none => rfl
      | some f =>
        simp [stage?_eq, hf] at h
        have hb : f.batch.modify t.piece (fun p => (p.1, s)) = f.batch := List.modify_eq_self h
        simp [FileReview.setStage, hb]
    · simp
  rw [setStage_eq, hfiles]

theorem pending_setStage_le (s : Stage) (t : Ticket) (c : Course) :
    (setStage s t c).pending pauses ≤ c.pending pauses + s.pending pauses := by
  cases ht : c.stage? t with
  | none =>
    rw [setStage_of_none ht]
    omega
  | some s₀ =>
    have h := pending_setStage pauses ht s
    omega

theorem pending_request_le (t : Ticket) (c : Course) :
    (c.request t).pending pauses ≤ c.pending pauses + (if c.free = 0 then pauses + 10 else 0) := by
  cases hf : c.free with
  | zero =>
    rw [request_of_full hf]
    exact pending_setStage_le pauses .waiting t c
  | succ k =>
    rw [request_of_free hf]
    exact pending_setStage_le pauses .calling t c

theorem pending_requests_le (ts : List Ticket) (c : Course) :
    (ts.foldl (fun c t => c.request t) c).pending pauses ≤ c.pending pauses + (pauses + 10) * ts.length := by
  induction ts generalizing c with
  | nil => simp
  | cons t ts ih =>
    have h₁ := ih (c.request t)
    have h₂ := pending_request_le pauses t c
    simp only [List.foldl_cons, List.length_cons, Nat.mul_add]
    split at h₂ <;> omega

theorem pending_giveBack (ht : c.stage? t = some .calling) (hl : c.line = []) (x : Except Failure Outcome) :
    (c.release x t).pending pauses = c.pending pauses := by
  rw [release_of_empty hl]
  exact pending_setStage pauses ht (.ended x)

theorem pending_handOver {n : Nat} (hc : c.Fair n) (ht : c.stage? t = some .calling) {u : Ticket}
    {line : List Ticket} (hl : c.line = u :: line) (x : Except Failure Outcome) :
    (c.release x t).pending pauses + (pauses + 10) = c.pending pauses := by
  have hu := (hc.first ht hl x).2.2
  rw [release_of_line hl]
  exact (pending_setStage pauses hu .calling).trans (pending_setStage pauses ht (.ended x))

theorem pending_advance {i : Nat} {f : FileReview} (hf : c.files[i]? = some f) (hd : f.isDue) :
    (c.advance i).pending pauses +
      (pauses + 11) * (if f.isFailed then [] else (c.advance i).tickets i : List Ticket).length ≤
        c.pending pauses := by
  have ht := total_advance (·.pending pauses) hf
  have hp := FileReview.pending_advance pauses hd
  have hl : ((c.advance i).tickets i).length = f.advance.batch.length := by
    simp [tickets, Course.advance, hf]
  cases hfailed : f.isFailed with
  | true =>
    simp [hfailed] at hp ⊢
    unfold pending
    omega
  | false =>
    simp [hfailed, hl] at hp ⊢
    unfold pending
    omega

end Course

/-- How many turns a task takes, with those that follow from it. -/
def Task.turns (pauses : Nat) : Task → Nat
  | .advance _ => 1
  | .request _ => pauses + 11
  | .resume _ => pauses + 10
  | .call _ => pauses + 9
  | .reply _ _ => 5
  | .release _ _ => 3

namespace Schedule
variable {r : Reviewer} {w : World σ} {c₀ : Course} {s : Schedule} (pauses : Nat)

def left (pauses : Nat) (s : Schedule) : Nat :=
  (s.queue.map fun q => q.1 + q.2.turns pauses).sum + 8 * s.silent.length +
    (pauses + 10) * s.newcomers.length + s.course.pending pauses

theorem left_append (s : Schedule) (queue : List (Nat × Task)) :
    left pauses { s with queue := s.queue ++ queue } =
      s.left pauses + (queue.map fun q => q.1 + q.2.turns pauses).sum := by
  simp only [left, List.map_append, List.sum_append]
  omega

theorem left_later (k : Nat) (task : Task) (s : Schedule) :
    (later k task s).left pauses = s.left pauses + (k + task.turns pauses) :=
  left_append pauses s [(k, task)]

theorem left_hand (t : Ticket) (s : Schedule) : (hand t s).left pauses = s.left pauses + (pauses + 10) := by
  rw [hand, left_later]
  simp [left, Task.turns]

theorem left_request (t : Ticket) (s : Schedule) :
    (request t s).left pauses < s.left pauses + (pauses + 11) := by
  have hp := Course.pending_request_le pauses t s.course
  unfold request
  split
  · simp [left, Nat.mul_add]
    omega
  · dsimp only
    split
    · simp only [left]
      split at hp <;> omega
    · rename_i hl
      rw [left_later]
      cases hf : s.course.free with
      | zero => simp [Course.request_of_full hf] at hl
      | succ k =>
        simp only [left, Task.turns]
        simp [hf] at hp
        omega

theorem left_grant (h : s.newcomers ≠ [] → s.course.free ≠ 0) : (grant s).left pauses ≤ s.left pauses := by
  unfold grant
  split
  · exact Nat.le_refl _
  · rename_i t newcomers hn
    have hf := h (by simp [hn])
    have hp := Course.pending_request_le pauses t s.course
    have hq := Course.pending_requests_le pauses newcomers (s.course.request t)
    rw [if_neg hf] at hp
    dsimp only
    split
    · rw [left_hand]
      simp only [left, hn, List.length_cons, List.length_nil, Nat.mul_add]
      omega
    · rw [left_hand]
      simp only [left, hn, List.length_cons, Nat.mul_add]
      omega

theorem left_resume (t : Ticket) (h : s.newcomers ≠ [] → s.course.free ≠ 0) :
    (resume t s).left pauses < s.left pauses + (pauses + 10) := by
  have hg := left_grant pauses (s := { s with handed := s.handed - 1 }) h
  rw [resume, left_later]
  simp only [Task.turns]
  change (grant { s with handed := s.handed - 1 }).left pauses ≤ s.left pauses at hg
  omega

theorem left_ended (t : Ticket) (x : Reply) (s : Schedule) :
    (ended t x s).left pauses = s.left pauses + 4 := by
  rw [ended, left_later]
  simp [left, Task.turns]

theorem left_call (hw : ∀ prompt st, ((w.call prompt).run st).1.pauses ≤ pauses) (t : Ticket) (s : Schedule)
    (st : σ) : (((call r w t s).run st).1).left pauses < s.left pauses + (pauses + 9) := by
  unfold call
  cases hp : s.course.piece? t with
  | none =>
    change s.left pauses < _
    omega
  | some q =>
    rcases q with ⟨f, p, y⟩
    dsimp only
    by_cases ht : r.timeout.isSpent = true
    · rw [if_pos ht]
      change (later 1 (.release t .silence) s).left pauses < _
      rw [left_later]
      simp only [Task.turns]
      omega
    · let prompt := reviewPrompt p f.path f.language r.maxPromptChars
      have hb := hw prompt st
      rw [if_neg ht, Reviewer.bind_run]
      generalize ((w.call prompt).run st).1 = b at hb ⊢
      rcases b with ⟨reply, k⟩
      let s₁ := { s with inFlight := s.inFlight + 1, peak := max s.peak (s.inFlight + 1) }
      have h₁ : s₁.left pauses = s.left pauses := rfl
      cases reply with
      | silence =>
        change left pauses { s₁ with silent := s₁.silent ++ [t] } < _
        simp [left, s₁]
        omega
      | content v | failure e =>
        cases k with
        | zero =>
          change (ended t _ s₁).left pauses < _
          rw [left_ended, h₁]
          omega
        | succ n =>
          change (later n (.reply t _) s₁).left pauses < _
          rw [left_later, h₁]
          simp only [Task.turns] at hb ⊢
          omega

theorem left_release {t : Ticket} {x : Reply} (h : s.Orderly r w c₀ (.release t x ::ₘ s.tasks)) :
    (release r w t x s).left pauses < s.left pauses + 3 := by
  have htracked := h.tracked
  simp [Multiset.filterMap_cons, Task.asks?, Task.calls?] at htracked
  have ht := (htracked.holding t).1 (by simp)
  rcases h.fits (.release t x) (Multiset.mem_cons_self _ _) with ⟨f, p, y, hp, -⟩
  have hdone {s' : Schedule} (h' : s'.left pauses ≤ s.left pauses) (isDue : Bool) :
      (if isDue then later 1 (.advance t.file) s' else s').left pauses < s.left pauses + 3 := by
    split
    · rw [left_later]
      simp only [Task.turns]
      omega
    · omega
  unfold release
  simp only [hp]
  refine hdone ?_ _
  cases hl : s.course.line with
  | nil =>
    have hpending := Course.pending_giveBack pauses ht hl (Outcome.ofReply w.nesting r.timeout p f.path x)
    refine Nat.le_trans (left_grant pauses fun _ => ?_) ?_
    · simp [Course.release_of_empty hl]
    · simp only [left]
      omega
  | cons u line =>
    have hpending := Course.pending_handOver pauses htracked.fair ht hl
      (Outcome.ofReply w.nesting r.timeout p f.path x)
    change (hand u _).left pauses ≤ _
    rw [left_hand]
    simp only [left]
    omega

theorem left_requests (ts : List Ticket) :
    ((ts.map fun t => (0, Task.request t)).map fun q => q.1 + q.2.turns pauses).sum =
      (pauses + 11) * ts.length := by
  simp [Function.comp_def, Task.turns, Nat.mul_comm]

theorem left_advance (i : Nat) (s : Schedule) (st : σ) :
    (((advance r w i s).run st).1).left pauses ≤ s.left pauses := by
  unfold advance
  cases hf : s.course.files[i]? with
  | none => exact Nat.le_refl _
  | some f =>
    cases hd : f.isDue with
    | false =>
      simp only [hd, Bool.not_false, if_true]
      exact Nat.le_refl _
    | true =>
      have hp := Course.pending_advance pauses hf hd
      let ts := if f.isFailed then [] else (s.course.advance i).tickets i
      let s₀ := { s with course := s.course.advance i }
      let s₁ := { s₀ with queue := s₀.queue ++ ts.map fun t => (0, Task.request t) }
      have h₁ : s₁.left pauses ≤ s.left pauses := by
        change _ + (pauses + 11) * ts.length ≤ _ at hp
        rw [left_append, left_requests]
        simp only [left, s₀]
        omega
      simp only [hd, Bool.not_true, Bool.false_eq_true, if_false]
      split <;> exact h₁

theorem left_expire (s : Schedule) : s.expire.left pauses + s.silent.length = s.left pauses := by
  have h := left_append pauses { s with silent := [] } (s.silent.map fun t => (2, Task.reply t .silence))
  change s.expire.left pauses = _ at h
  simp [left, Function.comp_def, Task.turns] at h ⊢
  omega

theorem left_dequeue {k : Nat} {task : Task} {queue : List (Nat × Task)} (hq : s.queue = (k, task) :: queue) :
    s.left pauses = left pauses { s with queue } + (k + task.turns pauses) := by
  simp only [left, hq, List.map_cons, List.sum_cons]
  omega

variable {pauses}

theorem Orderly.left_perform (hw : ∀ prompt st, ((w.call prompt).run st).1.pauses ≤ pauses) {task : Task}
    (h : s.Orderly r w c₀ (task ::ₘ s.tasks)) (st : σ) :
    (((perform r w s task).run st).1).left pauses < s.left pauses + task.turns pauses := by
  cases task with
  | advance i => exact Nat.lt_succ_of_le (left_advance pauses i s st)
  | request t => exact left_request pauses t s
  | resume t => exact left_resume pauses t h.room
  | call t => exact left_call pauses hw t s st
  | reply t x =>
    change (Schedule.ended t x s).left pauses < s.left pauses + 5
    rw [left_ended]
    omega
  | release t x => exact left_release pauses h

/-- Each turn takes something off what is left, as long as something can happen. -/
theorem Settled.left_lt (hw : ∀ prompt st, ((w.call prompt).run st).1.pauses ≤ pauses)
    (h : s.Settled r w c₀) (hbusy : s.queue = [] → s.silent ≠ []) (st : σ) :
    (((Schedule.step r w s).run st).1).left pauses < s.left pauses := by
  unfold Schedule.step
  split
  · rename_i hq
    have hs := List.length_pos_of_ne_nil (hbusy hq)
    have he := left_expire pauses s
    change s.expire.left pauses < _
    omega
  · rename_i task queue hq
    rw [left_dequeue pauses hq, Nat.zero_add]
    exact (h.orderly.dequeue hq).left_perform hw st
  · rename_i k task queue hq
    change (Schedule.later k task { s with queue }).left pauses < _
    rw [left_dequeue pauses hq, left_later]
    omega

theorem Settled.idle (hr : 1 ≤ r.maxConcurrent) (h : s.Settled r w c₀) (hq : s.queue = [])
    (hs : s.silent = []) : s.course.isDone := by
  have hn : s.newcomers = [] := by
    by_contra hn
    apply h.handed hn
    rw [h.orderly.handed]
    simp [tasks, hq, hs, resumes_requests]
  have htasks : s.tasks = 0 := by simp [tasks, hq, hs, hn]
  have htracked := htasks ▸ h.orderly.tracked
  have hdue (i : Nat) (f : FileReview) (hf : s.course.files[i]? = some f) : f.isDue = false := by
    by_contra hd
    have hmem := h.orderly.attended i (by simpa [Course.isDueAt, hf] using hd)
    simp [htasks] at hmem
  exact (htracked.fair.stuck (by omega) (fun t ht => by simpa using (htracked.submitted t).2 ht)
    (fun t ht => by simpa using (htracked.holding t).2 ht) hdue).1

theorem Settled.run_isDone (hr : 1 ≤ r.maxConcurrent) (h₀ : c₀.Filled)
    (hw : ∀ prompt st, ((w.call prompt).run st).1.pauses ≤ pauses) {fuel : Nat} (h : s.Settled r w c₀)
    (hl : s.left pauses ≤ fuel) (st : σ) : (((Schedule.run r w fuel s).run st).1).course.isDone := by
  induction fuel generalizing s st with
  | zero =>
    -- Every task and every silent call counts, so that with no turn left there is none of them.
    change s.course.isDone
    refine h.idle hr ?_ ?_
    · cases hq : s.queue with
      | nil => rfl
      | cons q queue =>
        rw [left_dequeue pauses hq] at hl
        cases hq : q.2 <;> simp [hq, Task.turns] at hl
    · cases hs : s.silent with
      | nil => rfl
      | cons t ts => simp [left, hs] at hl
  | succ fuel ih =>
    unfold Schedule.run
    split
    · assumption
    · rename_i ho
      have hbusy (hq : s.queue = []) : s.silent ≠ [] := fun hs => ho (h.idle hr hq hs)
      have hlt := h.left_lt hw hbusy st
      rw [StateT.run_bind]
      exact ih (h.step hr h₀ st) (by omega) _

theorem pending_of (r : Reviewer) (files : List (SourceFile × String)) (pauses : Nat) :
    (Course.of r files).pending pauses =
      (pauses + 11) * ((Course.of r files).files.flatMap fun f => f.rest.flatten).length := by
  simp only [Course.pending, Course.total, Course.of]
  induction files with
  | nil => rfl
  | cons a files ih =>
    simp [FileReview.pending, FileReview.weight, Nat.mul_add] at ih ⊢
    omega

theorem left_allAtOnce (r : Reviewer) (files : List (SourceFile × String)) (pauses : Nat) :
    (allAtOnce r files).left pauses ≤ turns pauses (Course.of r files) := by
  have hp := pending_of r files pauses
  have hl : (Course.of r files).files.length = files.length := by simp [Course.of]
  simp only [left, allAtOnce, turns, hp, hl, Nat.add_mul, Nat.mul_add, Nat.mul_comm pauses]
  simp [Function.comp_def, Task.turns]
  omega

theorem review_isDone (hr : 1 ≤ r.maxConcurrent)
    (hw : ∀ prompt st, ((w.call prompt).run st).1.pauses ≤ pauses) (files : List (SourceFile × String))
    (st : σ) : (((review r w pauses files).run st).1).course.isDone :=
  (settled_allAtOnce r w files).run_isDone hr (Course.filled_of r files) hw (left_allAtOnce r files pauses) st

theorem reviewEach_eq (r : Reviewer) (w : World σ) (pauses : Nat) (files : List (SourceFile × String)) (st : σ) :
    List.Forall₂ (fun f s => ∃ st, s = ((review r w pauses [f]).run st).1) files
      ((reviewEach r w pauses files).run st).1 := by
  unfold reviewEach
  induction files generalizing st with
  | nil => exact .nil
  | cons f files ih =>
    rw [Reviewer.mapM_cons_run]
    exact .cons ⟨st, rfl⟩ (ih _)

end Schedule
end CodeAudit
