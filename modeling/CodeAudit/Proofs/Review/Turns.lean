import CodeAudit.Proofs.Review.Due
import CodeAudit.Proofs.Review.Tracked
import CodeAudit.Review.Schedule

/-!
The turns of a schedule are moves of its course. What is still to happen is known by its tasks: whoever
asks for a permit is submitted, whoever is replied to holds one, and nobody does either twice.
-/
set_option autoImplicit false

namespace CodeAudit
variable {σ : Type}

namespace Task

def asks? : Task → Option Ticket
  | .request t => some t
  | _ => none

def calls? : Task → Option Ticket
  | .resume t | .call t | .reply t _ | .release t _ => some t
  | .advance _ | .request _ => none

def resumes? : Task → Option Ticket
  | .resume t => some t
  | _ => none

def replies? : Task → Option Ticket
  | .reply t _ => some t
  | _ => none

def Fits (r : Reviewer) (w : World σ) (c : Course) : Task → Prop
  | .reply t x | .release t x => ∃ f p s, c.piece? t = some (f, p, s) ∧
      r.Yields w f.path f.language p (Outcome.ofReply w.nesting r.timeout p f.path x)
  | _ => True

variable {r : Reviewer} {w : World σ} {c d : Course} {m : Move}

theorem Fits.step {task : Task} (h : task.Fits r w c) (hs : Course.Step c m d)
    (hc : ∀ t, task.calls? = some t → c.stage? t = some .calling) : task.Fits r w d := by
  cases task with
  | reply t x | release t x =>
    rcases h with ⟨f, p, s, hp, hy⟩
    have ht := hc t rfl
    simp [Course.stage?, hp] at ht
    subst ht
    rcases hs.piece hp with ⟨g, s, hg, hpath, hlang⟩
    exact ⟨g, p, s, hg, by rw [hpath, hlang]; exact hy⟩
  | advance i | request t | resume t | call t => trivial

end Task

namespace Schedule

def requests (ts : List Ticket) : Multiset Task := ts.map Task.request

@[simp] theorem requests_nil : requests [] = 0 := rfl

@[simp] theorem requests_cons (t : Ticket) (ts : List Ticket) :
    requests (t :: ts) = .request t ::ₘ requests ts := rfl

theorem asks_requests (ts : List Ticket) : (requests ts).filterMap Task.asks? = ts := by
  simp [requests, Function.comp_def, Task.asks?]

theorem calls_requests (ts : List Ticket) : (requests ts).filterMap Task.calls? = 0 := by
  simp [requests, Function.comp_def, Task.calls?]

theorem replies_requests (ts : List Ticket) : (requests ts).filterMap Task.replies? = 0 := by
  simp [requests, Function.comp_def, Task.replies?]

theorem resumes_requests (ts : List Ticket) : (requests ts).filterMap Task.resumes? = 0 := by
  simp [requests, Function.comp_def, Task.resumes?]

def tasks (s : Schedule) : Multiset Task :=
  ↑(s.queue.map (·.2)) + ↑(s.silent.map fun t => Task.reply t .silence) + requests s.newcomers

/-- The course has been reached from `c₀` by moves, and what is still to happen is `tasks`: no review is
due that is not to go on. -/
structure Orderly (r : Reviewer) (w : World σ) (c₀ : Course) (tasks : Multiset Task) (s : Schedule) :
    Prop where
  reached : ∃ ms, Course.Reaches (Course.Faithful r w) c₀ ms s.course
  tracked : s.course.Tracked r.maxConcurrent.toNat (tasks.filterMap Task.asks?) (tasks.filterMap Task.calls?)
  fits : ∀ task ∈ tasks, task.Fits r w s.course
  attended : ∀ i, s.course.isDueAt i → .advance i ∈ tasks
  inFlight : s.inFlight = (tasks.filterMap Task.replies?).card
  handed : s.handed = (tasks.filterMap Task.resumes?).card
  room : s.newcomers ≠ [] → s.course.free ≠ 0
  peak : s.peak ≤ r.maxConcurrent.toNat

/-- Between two turns nobody waits behind a permit that is not handed over. -/
structure Settled (r : Reviewer) (w : World σ) (c₀ : Course) (s : Schedule) : Prop where
  orderly : s.Orderly r w c₀ s.tasks
  handed : s.newcomers ≠ [] → s.handed ≠ 0

variable {r : Reviewer} {w : World σ} {c₀ : Course} {due : Multiset Task} {s : Schedule}

theorem tasks_later (k : Nat) (task : Task) (s : Schedule) : (later k task s).tasks = task ::ₘ s.tasks := by
  simp only [tasks, later, List.map_append, List.map_cons, List.map_nil, ← Multiset.coe_add,
    Multiset.coe_singleton, ← Multiset.singleton_add]
  abel

theorem tasks_silent (t : Ticket) (s : Schedule) :
    tasks { s with silent := s.silent ++ [t] } = .reply t .silence ::ₘ s.tasks := by
  simp only [tasks, List.map_append, List.map_cons, List.map_nil, ← Multiset.coe_add,
    Multiset.coe_singleton, ← Multiset.singleton_add]
  abel

theorem tasks_newcomer (t : Ticket) (s : Schedule) :
    tasks { s with newcomers := s.newcomers ++ [t] } = .request t ::ₘ s.tasks := by
  simp only [tasks, requests, List.map_append, List.map_cons, List.map_nil, ← Multiset.coe_add,
    Multiset.coe_singleton, ← Multiset.singleton_add]
  abel

theorem Orderly.rearranged {tasks : Multiset Task} (h : s.Orderly r w c₀ tasks) (queue : List (Nat × Task))
    (silent newcomers : List Ticket) (hroom : newcomers ≠ [] → s.course.free ≠ 0) :
    Orderly r w c₀ tasks { s with queue, silent, newcomers } :=
  ⟨h.reached, h.tracked, h.fits, h.attended, h.inFlight, h.handed, hroom, h.peak⟩

theorem Orderly.later {task : Task} (h : s.Orderly r w c₀ (task ::ₘ (due + s.tasks))) (k : Nat) :
    (later k task s).Orderly r w c₀ (due + (later k task s).tasks) := by
  rw [tasks_later, Multiset.add_cons]
  exact h.rearranged _ _ _ h.room

theorem Orderly.later_last {task : Task} (h : s.Orderly r w c₀ (task ::ₘ s.tasks)) (k : Nat) :
    (Schedule.later k task s).Orderly r w c₀ (Schedule.later k task s).tasks := by
  rw [tasks_later]
  exact h.rearranged _ _ _ h.room

theorem card_filterMap_cons (g : Task → Option Ticket) (a : Task) (tasks : Multiset Task) :
    ((a ::ₘ tasks).filterMap g).card = (g a).toList.length + (tasks.filterMap g).card := by
  cases h : g a with
  | none => simp [h]
  | some t => simp [h, Nat.add_comm]

theorem Orderly.attended_cons {tasks : Multiset Task} {a : Task} (h : s.Orderly r w c₀ (a ::ₘ tasks))
    (ha : ∀ i, a ≠ .advance i) {i : Nat} (hd : s.course.isDueAt i) : .advance i ∈ tasks :=
  (Multiset.mem_cons.1 (h.attended i hd)).resolve_left (Ne.symm (ha i))

theorem Orderly.swap {tasks : Multiset Task} {a b : Task} (h : s.Orderly r w c₀ (a ::ₘ tasks))
    (ha : ∀ i, a ≠ .advance i) (hasks : b.asks? = a.asks?) (hcalls : b.calls? = a.calls?)
    (hfits : b.Fits r w s.course) {i j : Nat}
    (hi : i + a.replies?.toList.length = s.inFlight + b.replies?.toList.length)
    (hj : j + a.resumes?.toList.length = s.handed + b.resumes?.toList.length) :
    Orderly r w c₀ (b ::ₘ tasks) { s with inFlight := i, handed := j } := by
  have hin := h.inFlight
  have hha := h.handed
  rw [card_filterMap_cons] at hin hha
  refine ⟨h.reached, ?_, fun task ht => ?_,
    fun i hd => Multiset.mem_cons_of_mem (h.attended_cons ha hd), ?_, ?_, h.room, h.peak⟩
  · have htracked := h.tracked
    simp only [Multiset.filterMap_cons, ← hasks, ← hcalls] at htracked ⊢
    exact htracked
  · rcases Multiset.mem_cons.1 ht with rfl | ht
    · exact hfits
    · exact h.fits task (Multiset.mem_cons_of_mem ht)
  · rw [card_filterMap_cons]
    change i = _
    omega
  · rw [card_filterMap_cons]
    change j = _
    omega

theorem Orderly.fits_move {tasks : Multiset Task} {d : Course} {m : Move} (h : s.Orderly r w c₀ tasks)
    (hs : m.next? s.course = some d) {task : Task} (ht : task ∈ tasks) : task.Fits r w d := by
  refine (h.fits task ht).step (Course.step_iff.2 hs) fun t hc => (h.tracked.holding t).1 ?_
  exact (Multiset.mem_filterMap _ _).2 ⟨task, ht, hc⟩

theorem Orderly.reached_move {tasks : Multiset Task} {d : Course} {m : Move} (h : s.Orderly r w c₀ tasks)
    (hs : m.next? s.course = some d) (hm : Course.Faithful r w s.course m) :
    ∃ ms, Course.Reaches (Course.Faithful r w) c₀ ms d := by
  rcases h.reached with ⟨ms, hr⟩
  exact ⟨_, hr.move hm hs⟩

theorem Orderly.take {tasks : Multiset Task} {t : Ticket} {k : Nat}
    (h : s.Orderly r w c₀ (.request t ::ₘ tasks)) (hf : s.course.free = k + 1)
    (hk : s.newcomers ≠ [] → k ≠ 0) :
    Orderly r w c₀ (.call t ::ₘ tasks) { s with course := s.course.request t } := by
  have htracked := h.tracked
  simp [Multiset.filterMap_cons, Task.asks?, Task.calls?] at htracked
  have hstage := (htracked.submitted t).1 (by simp)
  have hnext := Course.next?_request_of hstage
  refine ⟨h.reached_move hnext (by simp [Course.Faithful]), ?_, fun task ht => ?_, fun i hd => ?_, ?_, ?_,
    fun hn => ?_, h.peak⟩
  · simp [Multiset.filterMap_cons, Task.asks?, Task.calls?]
    exact htracked.take hf
  · rcases Multiset.mem_cons.1 ht with rfl | ht
    · trivial
    · exact h.fits_move hnext (by simp [ht])
  · rw [Course.isDueAt_request hstage] at hd
    exact Multiset.mem_cons_of_mem (h.attended_cons (by simp) hd)
  · simpa [Multiset.filterMap_cons, Task.replies?] using h.inFlight
  · simpa [Multiset.filterMap_cons, Task.resumes?] using h.handed
  · rw [Course.request_of_free hf]
    exact hk hn

theorem Orderly.wait {tasks : Multiset Task} {t : Ticket}
    (h : s.Orderly r w c₀ (.request t ::ₘ tasks)) (hf : s.course.free = 0) :
    Orderly r w c₀ tasks { s with course := s.course.request t } := by
  have htracked := h.tracked
  simp [Multiset.filterMap_cons, Task.asks?, Task.calls?] at htracked
  have hstage := (htracked.submitted t).1 (by simp)
  have hnext := Course.next?_request_of hstage
  refine ⟨h.reached_move hnext (by simp [Course.Faithful]), htracked.wait hf, fun task ht => ?_,
    fun i hd => ?_, ?_, ?_, fun hn => ?_, h.peak⟩
  · exact h.fits_move hnext (by simp [ht])
  · rw [Course.isDueAt_request hstage] at hd
    exact h.attended_cons (by simp) hd
  · simpa [Multiset.filterMap_cons, Task.replies?] using h.inFlight
  · simpa [Multiset.filterMap_cons, Task.resumes?] using h.handed
  · exact absurd hf (h.room hn)

theorem Orderly.request {t : Ticket} (h : s.Orderly r w c₀ (.request t ::ₘ s.tasks))
    (hn : s.newcomers ≠ [] → s.handed ≠ 0) :
    (request t s).Settled r w c₀ := by
  unfold Schedule.request
  split
  · rename_i hc
    simp at hc
    exact ⟨tasks_newcomer t s ▸ h.rearranged _ _ _ fun _ => hc.1, fun _ => hc.2⟩
  · rename_i hc
    have hfair := h.tracked.fair
    cases hf : s.course.free with
    | zero =>
      have hl : (s.course.request t).line.contains t = true := by simp [Course.request_of_full hf]
      rw [if_pos hl]
      exact ⟨h.wait hf, hn⟩
    | succ k =>
      have hempty : s.course.line = [] := by
        by_contra hl
        have := hfair.full hl
        omega
      have hl : (s.course.request t).line.contains t = false := by
        simp [Course.request_of_free hf, hempty]
      simp only [hl, Bool.false_eq_true, if_false]
      have hnone : s.newcomers = [] := by
        by_contra hne
        simp [hf, hn hne] at hc
      have ht := h.take hf fun hne => absurd hnone hne
      exact ⟨ht.later_last 0, hn⟩

theorem Orderly.hand {t : Ticket} (h : s.Orderly r w c₀ (.call t ::ₘ (due + s.tasks))) :
    (hand t s).Orderly r w c₀ (due + (hand t s).tasks) :=
  Orderly.later (s := { s with handed := s.handed + 1 })
    (h.swap (b := .resume t) (j := s.handed + 1) (by simp) rfl rfl trivial rfl rfl) 0

theorem Orderly.wait_all {tasks : Multiset Task} (ts : List Ticket)
    (h : s.Orderly r w c₀ (requests ts + tasks)) (hf : s.course.free = 0) :
    Orderly r w c₀ tasks { s with course := ts.foldl (fun c t => c.request t) s.course } := by
  induction ts generalizing s with
  | nil => simpa using h
  | cons t ts ih =>
    rw [requests_cons, Multiset.cons_add] at h
    refine ih (s := { s with course := s.course.request t }) (h.wait hf) ?_
    rw [Course.request_of_full hf]
    exact hf

theorem Orderly.grant (h : s.Orderly r w c₀ (due + s.tasks)) :
    (grant s).Orderly r w c₀ (due + (grant s).tasks) ∧
      ((grant s).newcomers ≠ [] → (grant s).handed ≠ 0) := by
  cases hn : s.newcomers with
  | nil =>
    have hg : Schedule.grant s = s := by simp [Schedule.grant, hn]
    rw [hg]
    exact ⟨h, by simp [hn]⟩
  | cons t newcomers =>
    rcases Nat.exists_eq_succ_of_ne_zero (h.room (by simp [hn])) with ⟨k, hf⟩
    have hfree : (s.course.request t).free = k := by rw [Course.request_of_free hf]
    cases k with
    | zero =>
      -- The last free permit goes to `t`, and the other newcomers get in line at once.
      let s₀ := { s with newcomers := [] }
      have ht : due + s.tasks = .request t ::ₘ (requests newcomers + (due + s₀.tasks)) := by
        simp only [s₀, tasks, hn, requests_cons, requests_nil, ← Multiset.singleton_add]
        abel
      rw [ht] at h
      have h₀ : s₀.Orderly r w c₀ (.request t ::ₘ (requests newcomers + (due + s₀.tasks))) :=
        h.rearranged _ _ _ (by simp)
      have h₁ := h₀.take hf (by simp [s₀])
      rw [← Multiset.add_cons] at h₁
      let s₂ := { s₀ with course := newcomers.foldl (fun c t => c.request t) (s.course.request t) }
      have h₂ : s₂.Orderly r w c₀ (.call t ::ₘ (due + s₂.tasks)) := h₁.wait_all newcomers hfree
      have hg : Schedule.grant s = Schedule.hand t s₂ := by simp [Schedule.grant, hn, hfree, s₂, s₀]
      rw [hg]
      exact ⟨h₂.hand, by simp [s₂, s₀, Schedule.hand, Schedule.later]⟩
    | succ k =>
      let s₀ := { s with newcomers }
      have ht : due + s.tasks = .request t ::ₘ (due + s₀.tasks) := by
        simp only [s₀, tasks, hn, requests_cons, ← Multiset.singleton_add]
        abel
      rw [ht] at h
      have h₀ : s₀.Orderly r w c₀ (.request t ::ₘ (due + s₀.tasks)) :=
        h.rearranged _ _ _ (by simp [hf])
      let s₁ := { s₀ with course := s.course.request t }
      have h₁ : s₁.Orderly r w c₀ (.call t ::ₘ (due + s₁.tasks)) := h₀.take hf (by simp)
      have hg : Schedule.grant s = Schedule.hand t s₁ := by simp [Schedule.grant, hn, hfree, s₁, s₀]
      rw [hg]
      exact ⟨h₁.hand, by simp [s₁, s₀, Schedule.hand, Schedule.later]⟩

theorem Orderly.resume {t : Ticket} (h : s.Orderly r w c₀ (.resume t ::ₘ s.tasks)) :
    (resume t s).Settled r w c₀ := by
  have hh := h.handed
  rw [card_filterMap_cons] at hh
  let s₁ := { s with handed := s.handed - 1 }
  have h₁ : s₁.Orderly r w c₀ ({.call t} + s₁.tasks) := by
    refine h.swap (b := .call t) (i := s.inFlight) (by simp) rfl rfl trivial rfl ?_
    simp [Task.resumes?] at hh ⊢
    omega
  rcases h₁.grant with ⟨h₂, hn⟩
  exact ⟨h₂.later_last 0, hn⟩

theorem Orderly.of_advance_task {tasks : Multiset Task} {i : Nat}
    (h : s.Orderly r w c₀ (.advance i ::ₘ tasks)) (hi : s.course.isDueAt i = false) :
    s.Orderly r w c₀ tasks := by
  refine ⟨h.reached, ?_, fun task ht => h.fits task (Multiset.mem_cons_of_mem ht), fun j hd => ?_, ?_, ?_,
    h.room, h.peak⟩
  · simpa [Multiset.filterMap_cons, Task.asks?, Task.calls?] using h.tracked
  · refine (Multiset.mem_cons.1 (h.attended j hd)).resolve_left fun h' => ?_
    cases h'
    simp [hi] at hd
  · simpa [Multiset.filterMap_cons, Task.replies?] using h.inFlight
  · simpa [Multiset.filterMap_cons, Task.resumes?] using h.handed

theorem Orderly.ended {t : Ticket} {x : Reply} (h : s.Orderly r w c₀ (.reply t x ::ₘ s.tasks))
    (hn : s.newcomers ≠ [] → s.handed ≠ 0) : (ended t x s).Settled r w c₀ := by
  have hh := h.inFlight
  rw [card_filterMap_cons] at hh
  have hfits := h.fits (.reply t x) (Multiset.mem_cons_self _ _)
  refine ⟨Orderly.later_last (s := { s with inFlight := s.inFlight - 1 })
    (h.swap (b := .release t x) (j := s.handed) (by simp) rfl rfl hfits ?_ rfl) 1, hn⟩
  simp [Task.replies?] at hh ⊢
  omega

theorem Orderly.attended_release {tasks : Multiset Task} {t : Ticket} {x : Reply}
    (h : s.Orderly r w c₀ (.release t x ::ₘ tasks)) (o : Except Failure Outcome) {i : Nat}
    (hd : (s.course.release o t).isDueAt i) : .advance i ∈ Task.advance t.file ::ₘ tasks := by
  by_cases ht : t.file = i
  · subst ht
    exact Multiset.mem_cons_self _ _
  · have hstage := (h.tracked.holding t).1 (by simp [Task.calls?])
    rw [Course.isDueAt_release h.tracked.fair hstage ht] at hd
    exact Multiset.mem_cons_of_mem (h.attended_cons (by simp) hd)

theorem Orderly.giveBack {tasks : Multiset Task} {t : Ticket} {x : Reply} {o : Except Failure Outcome}
    (h : s.Orderly r w c₀ (.release t x ::ₘ tasks)) (ho : Course.Faithful r w s.course (.release t o))
    (hl : s.course.line = []) :
    Orderly r w c₀ (.advance t.file ::ₘ tasks) { s with course := s.course.release o t } := by
  have htracked := h.tracked
  simp [Multiset.filterMap_cons, Task.asks?, Task.calls?] at htracked
  have hnext := Course.next?_release_of ((htracked.holding t).1 (by simp)) o
  refine ⟨h.reached_move hnext ho, ?_, fun task ht => ?_, fun i hd => h.attended_release o hd, ?_, ?_,
    fun _ => ?_, h.peak⟩
  · simp [Multiset.filterMap_cons, Task.asks?, Task.calls?]
    exact htracked.giveBack hl o
  · rcases Multiset.mem_cons.1 ht with rfl | ht
    · trivial
    · exact h.fits_move hnext (Multiset.mem_cons_of_mem ht)
  · simpa [Multiset.filterMap_cons, Task.replies?] using h.inFlight
  · simpa [Multiset.filterMap_cons, Task.resumes?] using h.handed
  · simp [Course.release_of_empty hl]

theorem Orderly.handOver {tasks : Multiset Task} {t u : Ticket} {x : Reply} {o : Except Failure Outcome}
    {line : List Ticket} (h : s.Orderly r w c₀ (.release t x ::ₘ tasks))
    (ho : Course.Faithful r w s.course (.release t o)) (hl : s.course.line = u :: line) :
    Orderly r w c₀ (.call u ::ₘ .advance t.file ::ₘ tasks)
      { s with course := s.course.release o t } := by
  have htracked := h.tracked
  simp [Multiset.filterMap_cons, Task.asks?, Task.calls?] at htracked
  have hnext := Course.next?_release_of ((htracked.holding t).1 (by simp)) o
  refine ⟨h.reached_move hnext ho, ?_, fun task ht => ?_,
    fun i hd => Multiset.mem_cons_of_mem (h.attended_release o hd), ?_, ?_, fun hn => ?_, h.peak⟩
  · simp [Multiset.filterMap_cons, Task.asks?, Task.calls?]
    exact htracked.handOver hl o
  · rcases Multiset.mem_cons.1 ht with rfl | ht
    · trivial
    · rcases Multiset.mem_cons.1 ht with rfl | ht
      · trivial
      · exact h.fits_move hnext (Multiset.mem_cons_of_mem ht)
  · simpa [Multiset.filterMap_cons, Task.replies?] using h.inFlight
  · simpa [Multiset.filterMap_cons, Task.resumes?] using h.handed
  · exact absurd (htracked.fair.full (by simp [hl])) (h.room hn)

theorem Orderly.release {t : Ticket} {x : Reply} (h : s.Orderly r w c₀ (.release t x ::ₘ s.tasks)) :
    (release r w t x s).Settled r w c₀ := by
  rcases h.fits (.release t x) (Multiset.mem_cons_self _ _) with ⟨f, p, y, hp, hy⟩
  let o := Outcome.ofReply w.nesting r.timeout p f.path x
  have ho : Course.Faithful r w s.course (.release t o) := by
    intro t' x' h'
    cases h'
    exact ⟨f, p, y, hp, hy⟩
  let s₁ := { s with course := s.course.release o t }
  -- The next batch is not in the queue before `grant` or `hand`: it is kept beside what is still to happen.
  let next : Multiset Task := if s₁.course.isDueAt t.file then {.advance t.file} else 0
  have hdone {s' : Schedule} (h' : s'.Orderly r w c₀ (next + s'.tasks))
      (hn : s'.newcomers ≠ [] → s'.handed ≠ 0) : Settled r w c₀
        (if s₁.course.isDueAt t.file then Schedule.later 1 (.advance t.file) s' else s') := by
    by_cases hd : s₁.course.isDueAt t.file
    · simp only [next, hd, if_true] at h' ⊢
      exact ⟨h'.later_last 1, hn⟩
    · simp only [next, hd, if_false, Multiset.zero_add, Bool.false_eq_true] at h' ⊢
      exact ⟨h', hn⟩
  unfold Schedule.release
  simp only [hp]
  cases hl : s.course.line with
  | nil =>
    have h₁ : s₁.Orderly r w c₀ (next + s₁.tasks) := by
      have h' := h.giveBack ho hl
      by_cases hd : s₁.course.isDueAt t.file
      · simp only [next, hd, if_true]
        exact h'
      · simp only [next, hd, if_false, Multiset.zero_add, Bool.false_eq_true]
        exact h'.of_advance_task (by simpa using hd)
    rcases h₁.grant with ⟨h₂, hn⟩
    exact hdone h₂ hn
  | cons u line =>
    have h₁ : s₁.Orderly r w c₀ (.call u ::ₘ (next + s₁.tasks)) := by
      have h' := h.handOver ho hl
      by_cases hd : s₁.course.isDueAt t.file
      · simp only [next, hd, if_true]
        exact h'
      · simp only [next, hd, if_false, Multiset.zero_add, Bool.false_eq_true]
        rw [Multiset.cons_swap] at h'
        exact h'.of_advance_task (by simpa using hd)
    exact hdone h₁.hand (by simp [Schedule.hand, Schedule.later])

theorem card_replies_le (tasks : Multiset Task) :
    (tasks.filterMap Task.replies?).card ≤ (tasks.filterMap Task.calls?).card := by
  induction tasks using Multiset.induction with
  | empty => simp
  | cons a tasks ih =>
    rw [card_filterMap_cons, card_filterMap_cons]
    have ha : a.replies?.toList.length ≤ a.calls?.toList.length := by
      cases a <;> simp [Task.replies?, Task.calls?]
    omega

theorem Orderly.inFlight_le {tasks : Multiset Task} (h : s.Orderly r w c₀ tasks) :
    s.inFlight ≤ s.course.held := by
  have hle := card_replies_le tasks
  have hin := h.inFlight
  have hheld := h.tracked.held
  omega

theorem Orderly.call {t : Ticket} (hr : 1 ≤ r.maxConcurrent) (h : s.Orderly r w c₀ (.call t ::ₘ s.tasks))
    (hn : s.newcomers ≠ [] → s.handed ≠ 0) (st : σ) : (((call r w t s).run st).1).Settled r w c₀ := by
  have htracked := h.tracked
  have hheld := htracked.held
  have hpermits := htracked.fair.permits
  have hle := card_replies_le s.tasks
  have hin := h.inFlight
  rw [card_filterMap_cons] at hin hheld
  have hflying : s.inFlight + 1 ≤ r.maxConcurrent.toNat := by
    simp [Task.replies?, Task.calls?] at hin hheld
    omega
  simp [Multiset.filterMap_cons, Task.asks?, Task.calls?] at htracked
  rcases Course.stage?_eq_some.1 ((htracked.holding t).1 (by simp)) with ⟨f, p, hf, hp⟩
  have hpiece := Course.piece?_eq_some.2 ⟨hf, hp⟩
  let prompt := reviewPrompt p f.path f.language r.maxPromptChars
  have hyields : r.Yields w f.path f.language p (Outcome.ofReply w.nesting r.timeout p f.path (r.heard w prompt st)) :=
    ⟨st, r.reviewChunk_eq w f.path f.language p st⟩
  have hneg : ¬r.maxConcurrent < 0 := by omega
  unfold Schedule.call
  simp only [hpiece]
  by_cases ht : r.timeout.isSpent = true
  · simp only [Reviewer.heard, hneg, ht, if_false, if_true] at hyields
    simp only [ht, if_true]
    refine ⟨Orderly.later_last (s := s) (h.swap (b := .release t .silence) (i := s.inFlight) (j := s.handed)
      (by simp) rfl rfl ⟨f, p, _, hpiece, hyields⟩ rfl rfl) 1, hn⟩
  · simp only [Reviewer.heard, hneg, ht, if_false] at hyields
    rw [if_neg ht, Reviewer.bind_run]
    change r.Yields w f.path f.language p
      (Outcome.ofReply w.nesting r.timeout p f.path ((w.call prompt).run st).1.reply) at hyields
    generalize ((w.call prompt).run st).1 = b at hyields ⊢
    rcases b with ⟨reply, pauses⟩
    let s₁ := { s with inFlight := s.inFlight + 1, peak := max s.peak (s.inFlight + 1) }
    have h₁ : s₁.Orderly r w c₀ (.reply t reply ::ₘ s₁.tasks) := by
      have h' := h.swap (b := .reply t reply) (i := s.inFlight + 1) (j := s.handed) (by simp) rfl rfl
        ⟨f, p, _, hpiece, hyields⟩ rfl rfl
      exact ⟨h'.reached, h'.tracked, h'.fits, h'.attended, h'.inFlight, h'.handed, h'.room,
        Nat.max_le.2 ⟨h.peak, hflying⟩⟩
    cases reply with
    | silence =>
      exact ⟨tasks_silent t s₁ ▸ h₁.rearranged _ _ _ h₁.room, hn⟩
    | content v | failure e =>
      cases pauses with
      | zero => exact h₁.ended hn
      | succ n => exact ⟨h₁.later_last n, hn⟩

/-- Where the time of all silent calls runs out nothing else changes. -/
theorem tasks_expire (s : Schedule) : s.expire.tasks = s.tasks := by
  simp [tasks, expire, Function.comp_def]

theorem Settled.expire (h : s.Settled r w c₀) : s.expire.Settled r w c₀ where
  orderly := by
    rw [tasks_expire]
    exact h.orderly.rearranged _ _ _ h.orderly.room
  handed := h.handed

theorem Orderly.advance {i : Nat} (h₀ : c₀.Filled) (h : s.Orderly r w c₀ (.advance i ::ₘ s.tasks))
    (hn : s.newcomers ≠ [] → s.handed ≠ 0) (st : σ) :
    (((Schedule.advance r w i s).run st).1).Settled r w c₀ := by
  unfold Schedule.advance
  cases hf : s.course.files[i]? with
  | none => exact ⟨h.of_advance_task (by simp [Course.isDueAt, hf]), hn⟩
  | some f =>
    cases hd : f.isDue with
    | false =>
      simp only [hd, Bool.not_false, if_true]
      exact ⟨h.of_advance_task (by simp [Course.isDueAt, hf, hd]), hn⟩
    | true =>
      let ts := if f.isFailed then [] else (s.course.advance i).tickets i
      let s₁ := { s with
        course := s.course.advance i, queue := s.queue ++ ts.map fun t => (0, Task.request t) }
      have hnext : (Move.advance i).next? s.course = some (s.course.advance i) := by simp [Move.next?, hf, hd]
      have ht : s₁.tasks = s.tasks + requests ts := by
        simp only [s₁, tasks, requests, List.map_append, List.map_map, Function.comp_def, ← Multiset.coe_add]
        abel
      have h₁ : s₁.Settled r w c₀ := by
        rcases h.reached with ⟨ms, hreached⟩
        have htracked := h.tracked
        simp [Multiset.filterMap_cons, Task.asks?, Task.calls?] at htracked
        refine ⟨ht ▸ ⟨h.reached_move hnext (by simp [Course.Faithful]), ?_, fun task htask => ?_,
          fun j hdue => ?_, ?_, ?_, h.room, h.peak⟩, hn⟩
        · simp only [Multiset.filterMap_add, asks_requests, calls_requests, Multiset.add_zero]
          exact htracked.advance hf hd
        · rcases Multiset.mem_add.1 htask with htask | htask
          · exact h.fits_move hnext (Multiset.mem_cons_of_mem htask)
          · rcases List.mem_map.1 htask with ⟨t, -, rfl⟩
            trivial
        · by_cases hij : i = j
          · subst hij
            have := Course.isDueAt_advance (h₀.reaches hreached) hf hd
            simp [s₁, this] at hdue
          · rw [Course.isDueAt_advance_of_ne hij] at hdue
            rcases Multiset.mem_cons.1 (h.attended j hdue) with h' | h'
            · cases h'
              exact absurd rfl hij
            · exact Multiset.mem_add.2 (.inl h')
        · simpa [Multiset.filterMap_add, Multiset.filterMap_cons, replies_requests, Task.replies?]
            using h.inFlight
        · simpa [Multiset.filterMap_add, Multiset.filterMap_cons, resumes_requests, Task.resumes?]
            using h.handed
      simp only [hd, Bool.not_true, Bool.false_eq_true, if_false]
      split <;> exact h₁

theorem Orderly.dequeue {k : Nat} {task : Task} {queue : List (Nat × Task)} (h : s.Orderly r w c₀ s.tasks)
    (hq : s.queue = (k, task) :: queue) :
    Orderly r w c₀ (task ::ₘ Schedule.tasks { s with queue }) { s with queue } := by
  have ht : s.tasks = task ::ₘ Schedule.tasks { s with queue } := by
    simp [tasks, hq, ← Multiset.cons_coe]
  rw [ht] at h
  exact h.rearranged _ _ _ h.room

theorem Settled.step (hr : 1 ≤ r.maxConcurrent) (h₀ : c₀.Filled) (h : s.Settled r w c₀) (st : σ) :
    (((Schedule.step r w s).run st).1).Settled r w c₀ := by
  have hn := h.handed
  unfold Schedule.step
  split
  · exact h.expire
  · rename_i task queue hq
    have h₁ := h.orderly.dequeue hq
    cases task with
    | advance i => exact h₁.advance h₀ hn st
    | request t => exact h₁.request hn
    | resume t => exact h₁.resume
    | call t => exact h₁.call hr hn st
    | reply t x => exact h₁.ended hn
    | release t x => exact h₁.release
  · rename_i k task queue hq
    exact ⟨(h.orderly.dequeue hq).later_last k, hn⟩

theorem Settled.run (hr : 1 ≤ r.maxConcurrent) (h₀ : c₀.Filled) (fuel : Nat) (h : s.Settled r w c₀) (st : σ) :
    (((Schedule.run r w fuel s).run st).1).Settled r w c₀ := by
  induction fuel generalizing s st with
  | zero => exact h
  | succ fuel ih =>
    unfold Schedule.run
    split
    · exact h
    · rw [StateT.run_bind]
      exact ih (h.step hr h₀ st) _

def allAtOnce (r : Reviewer) (files : List (SourceFile × String)) : Schedule where
  course := Course.of r files
  queue := (List.range files.length).map fun i => (0, .advance i)

theorem settled_allAtOnce (r : Reviewer) (w : World σ) (files : List (SourceFile × String)) :
    (allAtOnce r files).Settled r w (Course.of r files) := by
  have htasks : (allAtOnce r files).tasks = ((List.range files.length).map Task.advance : List Task) := by
    simp [tasks, allAtOnce, Function.comp_def]
  have hnone (g : Task → Option Ticket) (hg : ∀ i, g (.advance i) = none) :
      (((List.range files.length).map Task.advance : List Task) : Multiset Task).filterMap g = 0 := by
    simp [hg]
  refine ⟨htasks ▸ ⟨⟨[], .start⟩, ?_, ?_, fun i hi => ?_, ?_, ?_, by simp [allAtOnce], Nat.zero_le _⟩,
    by simp [allAtOnce]⟩
  · rw [hnone _ fun _ => rfl, hnone _ fun _ => rfl]
    exact {
      fair := Course.fair_of r files
      asks := Multiset.nodup_zero
      submitted := fun t => by simp [allAtOnce, Course.stage?_of]
      calls := Multiset.nodup_zero
      holding := fun t => by simp [allAtOnce, Course.stage?_of]
      held := (Course.held_eq_zero_iff.2 fun t => by simp [allAtOnce, Course.stage?_of]).symm }
  · intro task ht
    rcases List.mem_map.1 (Multiset.mem_coe.1 ht) with ⟨i, -, rfl⟩
    trivial
  · have hlt : i < files.length := by
      by_contra hn
      simp [Course.isDueAt, allAtOnce, Course.of, List.getElem?_eq_none (Nat.le_of_not_lt hn)] at hi
    simpa using hlt
  · rw [hnone _ fun _ => rfl]
    rfl
  · rw [hnone _ fun _ => rfl]
    rfl

theorem settled_review (hr : 1 ≤ r.maxConcurrent) (pauses : Nat) (files : List (SourceFile × String))
    (st : σ) : (((review r w pauses files).run st).1).Settled r w (Course.of r files) :=
  (settled_allAtOnce r w files).run hr (Course.filled_of r files) _ st

end Schedule
end CodeAudit
