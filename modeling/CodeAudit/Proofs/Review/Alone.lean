import CodeAudit.Proofs.Review.Batched
import CodeAudit.Proofs.Review.Finish

/-!
The review of a single file with nothing beside it. A batch has no more pieces than there are permits, so
that nobody waits: its pieces are called in order, and the next batch begins when they all have ended.
-/
set_option autoImplicit false

namespace CodeAudit

def Task.begins? : Task → Option Ticket
  | .call t => some t
  | _ => none

theorem Course.tickets_eq (c : Course) (i : Nat) {f : FileReview} (hf : c.files[i]? = some f) :
    c.tickets i = (List.range' 0 f.batch.length).map (Ticket.mk i) := by
  rw [tickets, hf, ← List.zipIdx_map_snd 0 f.batch, List.map_map]
  rfl

namespace Schedule
variable {σ : Type}

/-- The pieces about which the model is still to be asked, in order: those that have a permit are ahead of
those that ask for one. -/
def planned (queue : List (Nat × Task)) : List Ticket :=
  queue.filterMap (·.2.begins?) ++ queue.filterMap (·.2.asks?)

/-- No piece gives way to others before the model is asked about it. -/
def Prompt (queue : List (Nat × Task)) : Prop :=
  ∀ n task, (n, task) ∈ queue → task.begins?.isSome ∨ task.asks?.isSome → n = 0

/-- The review of a file with nothing beside it, while it goes on: the first `k` pieces of the batch have
been called, and the others follow. -/
structure Alone (path language : String) (f : FileReview) (k : Nat) (s : Schedule) : Prop where
  files : s.course.files = [f]
  line : s.course.line = []
  newcomers : s.newcomers = []
  handed : s.handed = 0
  path_eq : f.path = path
  language_eq : f.language = language
  result : f.result = none
  whole : ∀ p x, (p, Stage.ended x) ∈ f.batch → ∃ o, x = .ok o
  begun : k ≤ f.batch.length
  planned : planned s.queue = (List.range' k (f.batch.length - k)).map (Ticket.mk 0)
  prompt : Prompt s.queue

variable {r : Reviewer} {w : World σ} {c₀ : Course} {n k : Nat} {s : Schedule} {f : FileReview}
  {path language : String} {t : Ticket} {task : Task} {queue : List (Nat × Task)}

theorem planned_cons (hb : task.begins? = none) (ha : task.asks? = none) (n : Nat) :
    planned ((n, task) :: queue) = planned queue := by
  simp [planned, hb, ha]

theorem planned_append (more : List (Nat × Task)) (hb : ∀ q ∈ more, q.2.begins? = none) :
    planned (queue ++ more) = planned queue ++ more.filterMap (·.2.asks?) := by
  have hnone : more.filterMap (·.2.begins?) = [] := List.filterMap_eq_nil_iff.2 hb
  simp [planned, hnone]

theorem planned_later (hb : task.begins? = none) (ha : task.asks? = none) (n : Nat) :
    planned (queue ++ [(n, task)]) = planned queue := by
  rw [planned_append _ (by simpa using hb)]
  simp [ha]

theorem Prompt.cons (h : Prompt ((n, task) :: queue)) : Prompt queue :=
  fun m task hm => h m task (List.mem_cons_of_mem _ hm)

theorem Prompt.append {more : List (Nat × Task)} (h : Prompt queue) (hmore : Prompt more) :
    Prompt (queue ++ more) := by
  intro m task hm
  rcases List.mem_append.1 hm with hm | hm
  · exact h m task hm
  · exact hmore m task hm

theorem prompt_of_idle (hb : task.begins? = none) (ha : task.asks? = none) (n : Nat) :
    Prompt [(n, task)] := by
  intro m task' hm h
  simp only [List.mem_singleton, Prod.mk.injEq] at hm
  rcases hm with ⟨rfl, rfl⟩
  simp [hb, ha] at h

theorem prompt_zero (task : Task) : Prompt [(0, task)] := by
  intro m task' hm _
  simp only [List.mem_singleton, Prod.mk.injEq] at hm
  exact hm.1

theorem mem_tasks (h : (n, task) ∈ s.queue) : task ∈ s.tasks := by
  simp only [tasks, Multiset.mem_add, Multiset.mem_coe]
  exact .inl (.inl (List.mem_map.2 ⟨_, h, rfl⟩))

theorem mem_tasks_of_head (hq : s.queue = (n, task) :: queue) : task ∈ s.tasks :=
  mem_tasks (n := n) (hq ▸ List.mem_cons_self)

theorem Settled.submitted {c₀ : Course} (h : s.Settled r w c₀) (htask : task ∈ s.tasks)
    (ht : task.asks? = some t) : s.course.stage? t = some .submitted :=
  (h.orderly.tracked.submitted t).1 ((Multiset.mem_filterMap _ _).2 ⟨task, htask, ht⟩)

theorem Settled.calling {c₀ : Course} (h : s.Settled r w c₀) (htask : task ∈ s.tasks)
    (ht : task.calls? = some t) : s.course.stage? t = some .calling :=
  (h.orderly.tracked.holding t).1 ((Multiset.mem_filterMap _ _).2 ⟨task, htask, ht⟩)

namespace Alone

theorem requeue (h : Alone path language f k s) (hp : Schedule.planned queue = Schedule.planned s.queue)
    (hprompt : Prompt queue) (silent : List Ticket) (inFlight peak : Nat) :
    Alone path language f k { s with queue, silent, inFlight, peak } :=
  ⟨h.files, h.line, h.newcomers, h.handed, h.path_eq, h.language_eq, h.result, h.whole, h.begun,
    hp.trans h.planned, hprompt⟩

theorem stage?_eq (h : Alone path language f k s) {y : Stage} :
    s.course.stage? t = some y ↔ t.file = 0 ∧ ∃ p, f.batch[t.piece]? = some (p, y) := by
  rw [Course.stage?_eq_some, h.files]
  constructor
  · rintro ⟨g, p, hg, hp⟩
    rcases t with ⟨_ | i, j⟩
    · cases hg
      exact ⟨rfl, p, hp⟩
    · simp at hg
  · rintro ⟨ht, p, hp⟩
    exact ⟨f, p, by simp [ht], hp⟩

theorem pending (h : Alone path language f k s) (hs : s.Settled r w c₀) (i : Nat) (p : Chunk) (y : Stage)
    (hi : k ≤ i) (hp : f.batch[i]? = some (p, y)) : y.result? = none := by
  have hlt := (List.getElem?_eq_some_iff.1 hp).1
  have hstage : s.course.stage? ⟨0, i⟩ = some y := h.stage?_eq.2 ⟨rfl, p, hp⟩
  -- A piece that is still planned has a task in the queue, and the task tells its stage.
  have hmem : (⟨0, i⟩ : Ticket) ∈ Schedule.planned s.queue := by
    rw [h.planned, List.mem_map]
    exact ⟨i, by simp [List.mem_range'_1]; omega, rfl⟩
  simp only [Schedule.planned, List.mem_append, List.mem_filterMap] at hmem
  rcases hmem with ⟨⟨m, task⟩, hq, hb⟩ | ⟨⟨m, task⟩, hq, ha⟩
  · cases task with
    | call t =>
      cases hb
      cases hstage.symm.trans (hs.calling (mem_tasks hq) rfl)
      rfl
    | advance i | request t | resume t | reply t x | release t x => cases hb
  · cases hstage.symm.trans (hs.submitted (mem_tasks hq) ha)
    rfl

theorem free_ne_zero (h : Alone path language f k s) (hs : s.Settled r w c₀)
    (hsize : f.batch.length ≤ r.maxConcurrent.toNat) (ht : s.course.stage? t = some .submitted) :
    s.course.free ≠ 0 := by
  rcases h.stage?_eq.1 ht with ⟨-, p, hp⟩
  have hpermits := hs.orderly.tracked.fair.permits
  have hheld : s.course.held = f.batch.countP (·.2.holds) := by simp [Course.held, h.files]
  have hlt : f.batch.countP (·.2.holds) < f.batch.length := by
    refine Nat.lt_of_le_of_ne List.countP_le_length fun heq => ?_
    have := List.countP_eq_length.1 heq _ (List.mem_of_getElem? hp)
    simp [Stage.holds] at this
  omega

theorem files_setStage (h : Alone path language f k s) (ht : t.file = 0) (y : Stage) :
    (Course.setStage y t s.course).files = [f.setStage y t.piece] := by
  rw [Course.setStage_eq, h.files, ht]
  rfl

theorem length_setStage (y : Stage) (j : Nat) : (f.setStage y j).batch.length = f.batch.length := by
  simp [FileReview.setStage]

theorem request (h : Alone path language f k s) (hs : s.Settled r w c₀)
    (hsize : f.batch.length ≤ r.maxConcurrent.toNat) (hq : s.queue = (0, .request t) :: queue) :
    ∃ p, f.batch[t.piece]? = some (p, .submitted) ∧
      Alone path language (f.setStage .calling t.piece) k (Schedule.request t { s with queue }) := by
  have hstage := hs.submitted (mem_tasks_of_head hq) rfl
  rcases h.stage?_eq.1 hstage with ⟨hfile, p, hp⟩
  rcases Nat.exists_eq_succ_of_ne_zero (h.free_ne_zero hs hsize hstage) with ⟨m, hfree⟩
  refine ⟨p, hp, ?_⟩
  have hrun : Schedule.request t { s with queue } = Schedule.later 0 (.call t) { s with
      queue, course := { Course.setStage .calling t s.course with free := m } } := by
    simp [Schedule.request, h.handed, Course.request_of_free hfree, h.line]
  rw [hrun]
  refine ⟨h.files_setStage hfile _, h.line, h.newcomers, h.handed, h.path_eq, h.language_eq, h.result,
    fun q x hx => ?_, ?_, ?_, ?_⟩
  · rcases FileReview.mem_setStage hx with hx | ⟨_, -, hx⟩
    · exact h.whole q x hx
    · cases hx
  · rw [length_setStage]
    exact h.begun
  · rw [length_setStage, ← h.planned, hq]
    simp [Schedule.later, Schedule.planned, Task.begins?, Task.asks?]
  · exact (hq ▸ h.prompt).cons.append (prompt_zero _)

theorem call (h : Alone path language f k s) (hs : s.Settled r w c₀) (ht : r.timeout.isPositive)
    (hq : s.queue = (0, .call t) :: queue) (st : σ) :
    ∃ p, s.course.piece? t = some (f, p, .calling) ∧ f.batch[k]? = some (p, .calling) ∧
      Alone path language f (k + 1) (((Schedule.call r w t { s with queue }).run st).1) := by
  have hstage := hs.calling (mem_tasks_of_head hq) rfl
  rcases h.stage?_eq.1 hstage with ⟨hfile, p, hp⟩
  have hpiece : s.course.piece? t = some (f, p, .calling) :=
    Course.piece?_eq_some.2 ⟨by simp [h.files, hfile], hp⟩
  -- The call at the head of the queue is that of the first planned piece, which is piece `k`.
  have hplan := h.planned
  rw [hq] at hplan
  have hlt := (List.getElem?_eq_some_iff.1 hp).1
  have hk : k < f.batch.length := by
    by_contra hk
    rw [Nat.sub_eq_zero_of_le (by omega)] at hplan
    simp [Schedule.planned, List.filterMap_cons, Task.begins?] at hplan
  rw [show f.batch.length - k = f.batch.length - (k + 1) + 1 by omega, List.range'_succ] at hplan
  simp only [Schedule.planned, List.filterMap_cons, Task.begins?, Task.asks?, List.map_cons, List.cons_append,
    List.cons.injEq] at hplan
  rcases hplan with ⟨rfl, hplan⟩
  refine ⟨p, hpiece, hp, ?_⟩
  have h₁ : Alone path language f (k + 1) { s with queue } :=
    ⟨h.files, h.line, h.newcomers, h.handed, h.path_eq, h.language_eq, h.result, h.whole, hk, hplan,
      (hq ▸ h.prompt).cons⟩
  rw [call_run (s := { s with queue }) ht hpiece]
  rcases ((w.call (r.prompt f.path f.language p)).run st).1 with ⟨reply, pauses⟩
  have hlater (m : Nat) {task : Task} (hb : task.begins? = none) (ha : task.asks? = none) (i j : Nat) :
      Alone path language f (k + 1)
        { s with queue := queue ++ [(m, task)], inFlight := i, peak := j } :=
    h₁.requeue (planned_later hb ha m) (h₁.prompt.append (prompt_of_idle hb ha m)) _ i j
  cases reply with
  | silence => exact h₁.requeue rfl h₁.prompt _ _ _
  | content v | failure e =>
    cases pauses with
    | zero => exact hlater 1 rfl rfl _ _
    | succ m => exact hlater m rfl rfl _ _

theorem release {x : Reply} (h : Alone path language f k s) (hs : s.Settled r w c₀)
    (hyields : ∀ p ∈ f.batch.map (·.1), ∀ x, r.Yields w path language p x → ∃ o, x = .ok o)
    (hq : s.queue = (0, .release t x) :: queue) :
    ∃ p o, s.course.piece? t = some (f, p, .calling) ∧ f.batch[t.piece]? = some (p, .calling) ∧
      Alone path language (f.setStage (.ended (.ok o)) t.piece) k
        (Schedule.release r w t x { s with queue }) := by
  have hstage := hs.calling (mem_tasks_of_head hq) rfl
  rcases h.stage?_eq.1 hstage with ⟨hfile, p, hp⟩
  have hpiece : s.course.piece? t = some (f, p, .calling) :=
    Course.piece?_eq_some.2 ⟨by simp [h.files, hfile], hp⟩
  have hok : ∃ o, Outcome.ofReply w.nesting r.timeout p f.path x = .ok o := by
    rcases hs.orderly.fits _ (mem_tasks_of_head hq) with ⟨g, q, y, hpiece', hy⟩
    cases hpiece.symm.trans hpiece'
    rw [h.language_eq, h.path_eq] at hy
    rw [h.path_eq]
    exact hyields p (List.mem_map.2 ⟨_, List.mem_of_getElem? hp, rfl⟩) _ hy
  rcases hok with ⟨o, ho⟩
  refine ⟨p, o, hpiece, hp, ?_⟩
  have h₁ : Alone path language (f.setStage (.ended (.ok o)) t.piece) k { s with
      queue, course := s.course.release (.ok o) t } := by
    rw [Course.release_of_empty h.line]
    refine ⟨h.files_setStage hfile _, h.line, h.newcomers, h.handed, h.path_eq, h.language_eq, h.result,
      fun q y hy => ?_, ?_, ?_, (hq ▸ h.prompt).cons⟩
    · rcases FileReview.mem_setStage hy with hy | ⟨_, -, hy⟩
      · exact h.whole q y hy
      · cases hy
        exact ⟨o, rfl⟩
    · rw [length_setStage]
      exact h.begun
    · rw [length_setStage, ← h.planned, hq]
      exact (planned_cons rfl rfl 0).symm
  have hgrant : grant { s with queue, course := s.course.release (.ok o) t } =
      { s with queue, course := s.course.release (.ok o) t } := by
    simp [grant, h.newcomers]
  simp only [Schedule.release, hpiece, ho, h.line, List.head?_nil, hgrant]
  split
  · exact h₁.requeue (planned_later rfl rfl 1) (h₁.prompt.append (prompt_of_idle rfl rfl 1)) _ _ _
  · exact h₁

theorem advance (h : Alone path language f k s) (hs : s.Settled r w c₀)
    (hq : s.queue = (0, .advance 0) :: queue) (hd : f.isDue) (st : σ) :
    f.isFailed = false ∧ f.isEnded ∧ k = f.batch.length ∧
      (f.rest = [] ∧ (((Schedule.advance r w 0 { s with queue }).run st).1).course.isDone ∨
      ∃ b rest g, f.rest = b :: rest ∧ g.batch = b.map (fun c => (c, Stage.submitted)) ∧ g.rest = rest ∧
        Alone path language g 0 (((Schedule.advance r w 0 { s with queue }).run st).1)) := by
  have hfailed : f.isFailed = false := by
    by_contra hfailed
    cases hg : Reviewer.gathered f.results with
    | ok fs => exact hfailed (FileReview.isFailed_of_ok hg)
    | error e =>
      rcases FileReview.mem_of_failed hg with ⟨p, hp⟩
      rcases h.whole p _ hp with ⟨o, ho⟩
      cases ho
  have he := FileReview.isEnded_of_isDue hd hfailed
  have hk : k = f.batch.length := by
    refine Nat.le_antisymm h.begun (Nat.le_of_not_lt fun hk => ?_)
    have hp := List.getElem?_eq_getElem hk
    rcases FileReview.stage_of_isEnded he (List.mem_of_getElem? hp) with ⟨x, hx⟩
    have := h.pending hs k _ _ (Nat.le_refl k) hp
    simp [hx, Stage.result?] at this
  have hfile : s.course.files[0]? = some f := by simp [h.files]
  have hfiles : (s.course.advance 0).files = [f.advance] := by
    rw [Course.advance, h.files]
    rfl
  have hrun : ((Schedule.advance r w 0 { s with queue }).run st).1 = { s with
      course := s.course.advance 0
      queue := queue ++ ((s.course.advance 0).tickets 0).map fun t => (0, Task.request t) } := by
    simp only [Schedule.advance, hfile, hd, Bool.not_true, Bool.false_eq_true, if_false, hfailed]
    split <;> rfl
  have hplan : Schedule.planned queue = [] := by
    have hplan := h.planned
    rw [hk, Nat.sub_self, hq, planned_cons rfl rfl] at hplan
    exact hplan
  refine ⟨hfailed, he, hk, ?_⟩
  rw [hrun]
  have hadv := FileReview.advanced hd
  have htickets := Course.tickets_eq (s.course.advance 0) 0 (f := f.advance) (by simp [hfiles])
  have hpath := f.advance_path
  have hlanguage := f.advance_language
  generalize f.advance = g at hadv hfiles htickets hpath hlanguage
  cases hadv with
  | failed hg => simp [FileReview.isFailed_of_error hg] at hfailed
  | finished _ hg hr => exact .inl ⟨hr, by simp [Course.isDone, hfiles]⟩
  | @next fs b rest _ hg hr =>
    refine .inr ⟨b, rest, _, hr, rfl, rfl, hfiles, h.line, h.newcomers, h.handed, hpath.trans h.path_eq,
      hlanguage.trans h.language_eq, h.result, by simp, Nat.zero_le _, ?_, ?_⟩
    · rw [planned_append _ (by simp [Task.begins?]), hplan, htickets]
      simp [Function.comp_def, Task.asks?]
    · refine (hq ▸ h.prompt).cons.append fun m task hm _ => ?_
      simp only [List.mem_map, Prod.mk.injEq] at hm
      rcases hm with ⟨_, -, rfl, -⟩
      rfl

end Alone

/-- A lone review goes on, and its diary so far. -/
def GoesOn (r : Reviewer) (bs : List (List Chunk)) (path language : String) (s : Schedule)
    (es : List Sign) : Prop :=
  ∃ f k, Alone path language f k s ∧ (Told r bs f k es ∨ f.batch = [] ∧ f.rest = bs ∧ es = [])

/-- A lone review has come to its end, and its diary. -/
structure Ended (r : Reviewer) (bs : List (List Chunk)) (path language : String) (s : Schedule)
    (es : List Sign) : Prop where
  isDone : s.course.isDone
  written : ∃ ess, List.Forall₂ Batched (bs.map fun b => b.map (r.prompt path language)) ess ∧
    es = r.rests.intercalate ess
  bounded : Bounded r.maxConcurrent.toNat es

variable {bs : List (List Chunk)} {es : List Sign}

theorem Alone.told {j : Nat} {p : Chunk × Stage} (hp : f.batch[j]? = some p)
    (h : Told r bs f k es ∨ f.batch = [] ∧ f.rest = bs ∧ es = []) : Told r bs f k es := by
  rcases h with h | ⟨hb, -⟩
  · exact h
  · simp [hb] at hp

theorem GoesOn.advance (hbs : ∀ b ∈ bs, b ≠ []) (h : Alone path language f k s)
    (htold : Told r bs f k es ∨ f.batch = [] ∧ f.rest = bs ∧ es = []) (hs : s.Settled r w c₀)
    (hq : s.queue = (0, .advance 0) :: queue) (hd : f.isDue) (st : σ) :
    GoesOn r bs path language (((Schedule.advance r w 0 { s with queue }).run st).1) (es ++ s.signs r) ∨
      Ended r bs path language (((Schedule.advance r w 0 { s with queue }).run st).1) (es ++ s.signs r) := by
  rcases h.advance hs hq hd st with ⟨hfailed, he, rfl, hnext⟩
  have hsigns : s.signs r = if f.batch ≠ [] ∧ f.rest ≠ [] then r.rests else [] := by
    simp [signs, hq, h.files, hd, FileReview.pauses, hfailed, and_comm]
  rcases hnext with ⟨hrest, hdone⟩ | ⟨b, rest, g, hrest, hb, hg, hgo⟩
  · rw [hsigns, if_neg (by simp [hrest]), List.append_nil]
    rcases htold with htold | ⟨-, rfl, rfl⟩
    · refine .inr ⟨hdone, ?_, htold.bounded⟩
      rw [← h.path_eq, ← h.language_eq]
      exact htold.complete he hrest
    · refine .inr ⟨hdone, ⟨[], by simp [hrest], rfl⟩, fun p hp => ?_⟩
      simp [List.prefix_nil.1 hp]
  · rcases htold with htold | ⟨hempty, rfl, rfl⟩
    · have hbatch : f.batch ≠ [] := fun hempty => hbs _ htold.mem (by simp [hempty])
      rw [hsigns, if_pos ⟨hbatch, by simp [hrest]⟩]
      exact .inl ⟨g, 0, hgo, .inl (htold.next he hrest hb hg (hgo.path_eq.trans h.path_eq.symm)
        (hgo.language_eq.trans h.language_eq.symm))⟩
    · rw [hsigns, if_neg (by simp [hempty])]
      exact .inl ⟨g, 0, hgo, .inl (.start hrest hb hg)⟩

theorem Alone.not_due (h : Alone path language f k s) {i : Nat} (hq : s.queue = (0, .advance i) :: queue)
    (hd : ¬(i = 0 ∧ f.isDue)) (st : σ) :
    ((perform r w { s with queue } (.advance i)).run st).1 = { s with queue } ∧ s.signs r = [] := by
  rcases i with _ | i
  · have hnot : f.isDue = false := by simpa using hd
    refine ⟨?_, by simp [signs, hq, h.files, hnot]⟩
    simp [perform, Schedule.advance, h.files, hnot]
    rfl
  · refine ⟨?_, by simp [signs, hq, h.files]⟩
    simp [perform, Schedule.advance, h.files]
    rfl

theorem GoesOn.step (ht : r.timeout.isPositive)
    (hbs : ∀ b ∈ bs, b ≠ [] ∧ b.length ≤ r.maxConcurrent.toNat)
    (hyields : ∀ p ∈ bs.flatten, ∀ x, r.Yields w path language p x → ∃ o, x = .ok o)
    (h : GoesOn r bs path language s es) (hs : s.Settled r w c₀)
    (hs' : ∀ st, (((Schedule.step r w s).run st).1).Settled r w c₀) (st : σ) :
    GoesOn r bs path language (((Schedule.step r w s).run st).1) (es ++ s.signs r) ∨
      Ended r bs path language (((Schedule.step r w s).run st).1) (es ++ s.signs r) := by
  rcases h with ⟨f, k, h, htold⟩
  -- Turns at which nothing is seen, and after which as many pieces are planned.
  have hidle {s' : Schedule} (h' : Alone path language f k s') (hsigns : s.signs r = []) :
      GoesOn r bs path language s' (es ++ s.signs r) ∨ Ended r bs path language s' (es ++ s.signs r) := by
    rw [hsigns, List.append_nil]
    exact .inl ⟨f, k, h', htold⟩
  have hnext := hs' st
  unfold Schedule.step at hnext ⊢
  split at hnext
  · rename_i hq
    refine hidle (h.requeue ?_ ?_ _ _ _) (by simp [signs, hq])
    · rw [planned_append _ (by simp [Task.begins?])]
      simp [Task.asks?]
    · refine h.prompt.append fun m task hm hb => ?_
      simp only [List.mem_map, Prod.mk.injEq] at hm
      rcases hm with ⟨t, -, -, rfl⟩
      simp [Task.begins?, Task.asks?] at hb
  · rename_i task queue hq
    have hpop (hb : task.begins? = none) (ha : task.asks? = none) :
        Alone path language f k { s with queue } :=
      h.requeue ((planned_cons hb ha 0).symm.trans (congrArg planned hq.symm)) (hq ▸ h.prompt).cons _ _ _
    cases task with
    | advance i =>
      by_cases hd : i = 0 ∧ f.isDue
      · rcases hd with ⟨rfl, hd⟩
        exact GoesOn.advance (fun b hb => (hbs b hb).1) h htold hs hq hd st
      · rcases h.not_due (r := r) (w := w) hq hd st with ⟨hrun, hsigns⟩
        rw [hrun]
        exact hidle (hpop rfl rfl) hsigns
    | request t =>
      have hsigns : s.signs r = [] := by simp [signs, hq]
      have hsize (p : Chunk × Stage) (hp : p ∈ f.batch) : f.batch.length ≤ r.maxConcurrent.toNat := by
        rcases List.getElem?_of_mem hp with ⟨j, hj⟩
        simpa using (hbs _ (Alone.told hj htold).mem).2
      have hasked := hs.submitted (mem_tasks_of_head hq) rfl
      rcases h.stage?_eq.1 hasked with ⟨-, p, hp⟩
      rcases h.request hs (hsize _ (List.mem_of_getElem? hp)) hq with ⟨p, hp, h'⟩
      rw [hsigns, List.append_nil]
      exact .inl ⟨_, k, h', .inl ((Alone.told hp htold).goOn hp rfl rfl)⟩
    | resume t =>
      -- Permits are handed on to those that wait, and nobody waits.
      have hmem : t ∈ s.tasks.filterMap Task.resumes? :=
        (Multiset.mem_filterMap _ _).2 ⟨.resume t, mem_tasks_of_head hq, rfl⟩
      have hcard := Multiset.card_pos_iff_exists_mem.2 ⟨t, hmem⟩
      rw [← hs.orderly.handed, h.handed] at hcard
      exact absurd hcard (Nat.lt_irrefl 0)
    | call t =>
      rcases h.call (w := w) hs ht hq st with ⟨p, hpiece, hp, h'⟩
      have hsigns : s.signs r = [.asked (r.prompt f.path f.language p)] := by
        simp [signs, hq, Course.prompt?, hpiece]
      rw [hsigns]
      exact .inl ⟨f, k + 1, h', .inl ((Alone.told hp htold).ask (fun b hb => (hbs b hb).2) hp)⟩
    | reply t x =>
      refine hidle ?_ (by simp [signs, hq])
      have h' := hpop rfl rfl
      exact h'.requeue (planned_later rfl rfl 1) (h'.prompt.append (prompt_of_idle rfl rfl 1)) _ _ _
    | release t x =>
      have hheld := hs.calling (mem_tasks_of_head hq) rfl
      rcases h.stage?_eq.1 hheld with ⟨-, p, hp⟩
      have hbatch := (Alone.told hp htold).mem
      rcases h.release hs (fun p hp => hyields p (List.mem_flatten.2 ⟨_, hbatch, hp⟩)) hq with
        ⟨p, o, hpiece, hp, h'⟩
      have hsigns : s.signs r = [.ended (r.prompt f.path f.language p)] := by
        simp [signs, hq, Course.prompt?, hpiece]
      rw [hsigns]
      exact .inl ⟨_, k, h', .inl ((Alone.told hp htold).finish hp rfl (.ok o) (h'.pending hnext))⟩
  · rename_i m task queue hq
    have hidle' : ¬(task.begins?.isSome ∨ task.asks?.isSome) := fun hb => by
      have := h.prompt (m + 1) task (by simp [hq]) hb
      omega
    have hb : task.begins? = none := by simpa using fun hb => hidle' (.inl hb)
    have ha : task.asks? = none := by simpa using fun ha => hidle' (.inr ha)
    refine hidle (h.requeue ?_ ?_ _ _ _) (by simp [signs, hq])
    · rw [hq]
      exact (planned_later hb ha m).trans (planned_cons hb ha (m + 1)).symm
    · exact (hq ▸ h.prompt).cons.append (prompt_of_idle hb ha m)

theorem GoesOn.not_isDone (h : GoesOn r bs path language s es) : ¬s.course.isDone = true := by
  rcases h with ⟨f, k, h, -⟩
  simp [Course.isDone, h.files, h.result]

theorem GoesOn.bounded (h : GoesOn r bs path language s es) : Bounded r.maxConcurrent.toNat es := by
  rcases h with ⟨f, k, -, htold | ⟨-, -, rfl⟩⟩
  · exact htold.bounded
  · intro p hp
    simp [List.prefix_nil.1 hp]

theorem GoesOn.watch (hr : 1 ≤ r.maxConcurrent) (ht : r.timeout.isPositive)
    (hbs : ∀ b ∈ bs, b ≠ [] ∧ b.length ≤ r.maxConcurrent.toNat)
    (hyields : ∀ p ∈ bs.flatten, ∀ x, r.Yields w path language p x → ∃ o, x = .ok o) (h₀ : c₀.Filled)
    (h : GoesOn r bs path language s es) (hs : s.Settled r w c₀) (fuel : Nat) (st : σ) :
    let p := (Schedule.watch r w fuel s).run (st, es)
    GoesOn r bs path language p.1 p.2.2 ∨ Ended r bs path language p.1 p.2.2 := by
  induction fuel generalizing s st es with
  | zero => exact .inl h
  | succ fuel ih =>
    rw [watch_succ ht h.not_isDone]
    have hs' (st : σ) := hs.step hr h₀ st
    rcases h.step ht hbs hyields hs hs' st with hnext | hnext
    · exact ih hnext (hs' st) _
    · have hover : Schedule.watch r w fuel ((Schedule.step r w s).run st).1 =
          pure ((Schedule.step r w s).run st).1 := by
        cases fuel with
        | zero => rfl
        | succ fuel => rw [Schedule.watch, if_pos hnext.isDone]
      rw [hover]
      exact .inr hnext

theorem goesOn_of (r : Reviewer) (path text language : String) :
    GoesOn r (Reviewer.batches r.maxConcurrent.toNat (Chunk.split r.window text)) path language
      (allAtOnce r [(⟨path, text⟩, language)]) [] :=
  ⟨_, 0, ⟨rfl, rfl, rfl, rfl, rfl, rfl, rfl, by simp, Nat.le_refl _, rfl, prompt_zero _⟩,
    .inr ⟨rfl, rfl, rfl⟩⟩

end Schedule

theorem Reviewer.length_of_mem_batches {α : Type} {size : Nat} {xs b : List α} (h : b ∈ batches size xs) :
    b.length ≤ size := by
  fun_induction batches size xs with
  | case1 => simp at h
  | case2 => simp at h
  | case3 n x r ih =>
    rcases List.mem_cons.1 h with rfl | h
    · simp
    · exact ih h

/-- The review of a file with nothing beside it. The model is asked about its pieces in order, batch after
batch: the next one begins when the reviews of all pieces of the one before have ended, after a rest, if
there is one, and at no time are more calls under way than allowed. -/
theorem Reviewer.reviewFile_batches {σ : Type} {r : Reviewer} {w : World σ} (hr : 1 ≤ r.maxConcurrent)
    (ht : r.timeout.isPositive) (path text language : String)
    (hc : ∀ c ∈ Chunk.split r.window text, ∀ s e, ((r.reviewChunk w path language c).run s).1 ≠ .error e) :
    let pieces := Chunk.split r.window text
    let m := r.maxConcurrent.toNat
    ∃ bs : List (List Chunk), bs.length = (pieces.length + m - 1) / m ∧ bs.flatten = pieces ∧
      bs = (List.range bs.length).map (fun k => (pieces.drop (k * m)).take m) ∧
      (∀ s, ((r.reviewFile w.noted path text language).run (s, [])).2.2 =
        r.rests.intercalate (bs.map fun b => b.map fun c => .asked (r.prompt path language c))) ∧
      ∀ (fuel : Nat) (st st' : σ) (s : Schedule) (es : List Sign),
        (Schedule.watch r w fuel (Schedule.allAtOnce r [(⟨path, text⟩, language)])).run
          (st, []) = (s, st', es) →
        (Schedule.run r w fuel (Schedule.allAtOnce r [(⟨path, text⟩, language)])).run st =
          (s, st') ∧
        Bounded m es ∧ s.peak ≤ m ∧
        (s.course.isDone → es.filterMap Sign.asked? = pieces.map (r.prompt path language) ∧
          ∃ ess, List.Forall₂ Batched (bs.map fun b => b.map (r.prompt path language)) ess ∧
            es = r.rests.intercalate ess ∧
            es.countP Sign.isRest = if r.delay.isPositive then bs.length - 1 else 0) ∧
        ∀ pauses, (∀ prompt st, ((w.call prompt).run st).1.pauses ≤ pauses) →
          Schedule.turns pauses (Course.of r [(⟨path, text⟩, language)]) ≤ fuel → s.course.isDone := by
  intro pieces m
  let bs := batches m pieces
  have hm : 0 < m := by omega
  have hflatten : bs.flatten = pieces := batches_flatten hm pieces
  have hbatches := batches_eq hm pieces
  have hlength : bs.length = (pieces.length + m - 1) / m := by
    rw [show bs = _ from hbatches]
    simp
  refine ⟨bs, hlength, hflatten, by rw [hlength]; exact hbatches, fun s => ?_, fun fuel st st' s es hrun => ?_⟩
  · have hbs : ∀ c ∈ bs.flatten, ∀ s e, ((r.reviewChunk w path language c).run s).1 ≠ .error e := by
      rw [hflatten]
      exact hc
    exact (reviewBatches_noted hr ht hbs s []).trans (List.nil_append _)
  · have hfilled := Course.filled_of r [(⟨path, text⟩, language)]
    have hsettled := Schedule.settled_allAtOnce r w [(⟨path, text⟩, language)]
    have hsame := Schedule.watch_run (w := w) ht fuel
      (Schedule.allAtOnce r [(⟨path, text⟩, language)]) st []
    have hyields : ∀ p ∈ bs.flatten, ∀ x, r.Yields w path language p x → ∃ o, x = .ok o := by
      rw [hflatten]
      rintro p hp x ⟨s, rfl⟩
      cases hx : ((r.reviewChunk w path language p).run s).1 with
      | ok o => exact ⟨o, rfl⟩
      | error e => exact absurd hx (hc p hp s e)
    have hgo := (Schedule.goesOn_of r path text language).watch (w := w) hr ht
      (fun b hb => ⟨ne_nil_of_mem_batches hb, length_of_mem_batches hb⟩) hyields hfilled hsettled fuel st
    rw [hrun] at hsame hgo
    have hpeak := (hsettled.run hr hfilled fuel st).orderly.peak
    dsimp only at hsame hgo
    rw [← hsame.1] at hpeak
    refine ⟨Prod.ext hsame.1.symm hsame.2.symm, ?_, hpeak, fun hdone => ?_, fun pauses hp hfuel => ?_⟩
    · rcases hgo with hgo | hgo
      · exact hgo.bounded
      · exact hgo.bounded
    · rcases hgo with hgo | hgo
      · exact absurd hdone hgo.not_isDone
      · rcases hgo.written with ⟨ess, hess, rfl⟩
        refine ⟨?_, ess, hess, rfl, ?_⟩
        · rw [asked_intercalate hess, ← List.map_flatten, hflatten]
        · rw [countP_isRest hess, List.length_map]
    · have hleft := Schedule.left_allAtOnce r [(⟨path, text⟩, language)] pauses
      rw [hsame.1]
      exact hsettled.run_isDone hr hfilled hp (Nat.le_trans hleft hfuel) st

/-- Three pieces, two at a time: the first is never replied to, the call for the second fails. -/
theorem Reviewer.reviewFile_batches_three :
    let r : Reviewer := ⟨⟨1, 0, by decide⟩, 2, .whole 1, .whole 5, 100⟩
    let one := r.prompt "p" "Python" ⟨"a", 1, 1, 0, 3⟩
    let two := r.prompt "p" "Python" ⟨"b", 2, 2, 1, 3⟩
    let three := r.prompt "p" "Python" ⟨"c", 3, 3, 2, 3⟩
    let w : World Unit := ⟨fun prompt _ => (if prompt = one then ⟨.silence, 0⟩
      else if prompt = two then ⟨.failure (.model "no route"), 2⟩
      else ⟨.content (.text "[\x7b\"line\": 1\x7d]"), 3⟩, ()), fun _ _ => ((), ()), Script.nesting⟩
    ∃ es es', Batched [one, two] es ∧ Batched [three] es' ∧
      ((Schedule.watch r w 100
        (Schedule.allAtOnce r [(⟨"p", "a\nb\nc"⟩, "Python")])).run ((), [])).2.2 =
        es ++ .rest (.whole 1) :: es' := by
  intro r one two three w
  have hsplit : Chunk.split r.window "a\nb\nc" =
      [⟨"a", 1, 1, 0, 3⟩, ⟨"b", 2, 2, 1, 3⟩, ⟨"c", 3, 3, 2, 3⟩] := by cbv
  have hn : w.nesting = Script.nesting := rfl
  have hi : Answer.issues Script.nesting "[\x7b\"line\": 1\x7d]".toList = .ok [[("line", .int 1)]] := by cbv
  have hc (c : Chunk) (s : Unit) (e : Failure) : ((r.reviewChunk w "p" "Python" c).run s).1 ≠ .error e := by
    have ht : (Reply.content (.text "[\x7b\"line\": 1\x7d]")).text? =
        some "[\x7b\"line\": 1\x7d]".toList := rfl
    have hreply (prompt : String) : ((w.call prompt).run s).1.reply = if prompt = one then .silence
        else if prompt = two then .failure (.model "no route")
        else .content (.text "[\x7b\"line\": 1\x7d]") := by
      change (if prompt = one then _ else if prompt = two then _ else _ : Behaviour).reply = _
      split
      · rfl
      · split <;> rfl
    rw [reviewChunk_eq, heard_eq (by decide) rfl, hreply]
    split
    · simp [Outcome.ofReply]
    · split
      · simp [Outcome.ofReply]
      · simp only [Outcome.ofReply_text ht, Outcome.ofText, hn, hi]
        simp
  rcases reviewFile_batches (r := r) (by decide) rfl "p" "a\nb\nc" "Python" fun c _ => hc c with
    ⟨bs, hlength, -, hbs, -, hall⟩
  rcases hrun : (Schedule.watch r w 100 (Schedule.allAtOnce r [(⟨"p", "a\nb\nc"⟩, "Python")])).run
    ((), []) with ⟨s, ⟨⟩, es⟩
  rcases hall 100 () _ _ _ hrun with ⟨-, -, -, hdone, hfuel⟩
  have hpauses (prompt : String) (st : Unit) : ((w.call prompt).run st).1.pauses ≤ 3 := by
    change (if prompt = one then _ else if prompt = two then _ else _ : Behaviour).pauses ≤ 3
    split
    · decide
    · split <;> decide
  rw [hsplit] at hlength hbs
  rw [hlength] at hbs
  have hbatches : bs = [[⟨"a", 1, 1, 0, 3⟩, ⟨"b", 2, 2, 1, 3⟩], [⟨"c", 3, 3, 2, 3⟩]] :=
    hbs.trans (by cbv)
  subst hbatches
  have hturns : Schedule.turns 3 (Course.of r [(⟨"p", "a\nb\nc"⟩, "Python")]) ≤ 100 := by cbv
  rcases (hdone (hfuel 3 hpauses hturns)).2 with ⟨ess, hess, hes, -⟩
  cases hess with
  | cons hes₁ hess =>
    cases hess with
    | cons hes₂ hess =>
      cases hess
      have hrests : r.rests = [.rest (.whole 1)] := rfl
      refine ⟨_, _, hes₁, hes₂, hes.trans ?_⟩
      rw [hrests, List.intercalate_cons_cons, List.intercalate_singleton, List.append_assoc]
      rfl

end CodeAudit
