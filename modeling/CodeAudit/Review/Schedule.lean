import CodeAudit.Review.Course

/-!
Several reviews under way at once. What is ready to happen stands in a queue and happens in turn; a
call that gives way goes back to its end. Calls to which no reply comes run out of time when nothing
else is left to happen.

A piece that waited in line takes up its permit one turn after it was handed over. Until then nobody
may pass it: a newcomer stands behind, even where another permit is free.
-/
set_option autoImplicit false

namespace CodeAudit

inductive Task where
  | advance (file : Nat)
  | request (t : Ticket)
  | resume (t : Ticket)
  | call (t : Ticket)
  | reply (t : Ticket) (r : Reply)
  | release (t : Ticket) (r : Reply)
  deriving Repr

/-- The queue holds each task with the number of turns that it lets pass. -/
structure Schedule where
  course : Course
  queue : List (Nat × Task)
  silent : List Ticket := []
  /-- How many permits are handed over and not yet taken up. -/
  handed : Nat := 0
  /-- The newcomers behind a permit that is not yet taken up. -/
  newcomers : List Ticket := []
  inFlight : Nat := 0
  peak : Nat := 0

namespace Schedule
variable {σ : Type}

def later (turns : Nat) (t : Task) (s : Schedule) : Schedule := { s with queue := s.queue ++ [(turns, t)] }

def advance (r : Reviewer) (w : World σ) (i : Nat) (s : Schedule) : StateM σ Schedule := do
  match s.course.files[i]? with
  | none => return s
  | some f =>
    if !f.isDue then return s
    else
      if f.pauses && r.delay.isPositive then w.sleep r.delay
      let course := s.course.advance i
      let requests := if f.isFailed then [] else course.tickets i
      return { s with course, queue := s.queue ++ requests.map fun t => (0, .request t) }

def hand (t : Ticket) (s : Schedule) : Schedule :=
  later 0 (.resume t) { s with handed := s.handed + 1 }

/-- A free permit goes to the first newcomer; where that was the last one the others are in line. -/
def grant (s : Schedule) : Schedule :=
  match s.newcomers with
  | [] => s
  | t :: newcomers =>
    let course := s.course.request t
    if course.free = 0 then
      hand t { s with course := newcomers.foldl (fun c t => c.request t) course, newcomers := [] }
    else hand t { s with course, newcomers }

def request (t : Ticket) (s : Schedule) : Schedule :=
  if s.course.free ≠ 0 && s.handed ≠ 0 then { s with newcomers := s.newcomers ++ [t] }
  else
    let course := s.course.request t
    if course.line.contains t then { s with course }
    else later 0 (.call t) { s with course }

def resume (t : Ticket) (s : Schedule) : Schedule :=
  later 0 (.call t) (grant { s with handed := s.handed - 1 })

def ended (t : Ticket) (r : Reply) (s : Schedule) : Schedule :=
  later 1 (.release t r) { s with inFlight := s.inFlight - 1 }

def call (r : Reviewer) (w : World σ) (t : Ticket) (s : Schedule) : StateM σ Schedule := do
  match s.course.piece? t with
  | none => return s
  | some (f, c, _) =>
    if r.timeout.isSpent then return later 1 (.release t .silence) s
    else
      let b ← w.call (reviewPrompt c f.path f.language r.maxPromptChars)
      let n := s.inFlight + 1
      let s := { s with inFlight := n, peak := max s.peak n }
      match b.reply, b.pauses with
      | .silence, _ => return { s with silent := s.silent ++ [t] }
      | reply, 0 => return ended t reply s
      | reply, n + 1 => return later n (.reply t reply) s

def release (r : Reviewer) (w : World σ) (t : Ticket) (reply : Reply) (s : Schedule) : Schedule :=
  match s.course.piece? t with
  | none => s
  | some (f, c, _) =>
    let next := s.course.line.head?
    let course := s.course.release (Outcome.ofReply w.nesting r.timeout c f.path reply) t
    let s := { s with course }
    let s := match next with
      | some t => hand t s
      | none => grant s
    if (course.files[t.file]?.map (·.isDue)).getD false then later 1 (.advance t.file) s else s

def perform (r : Reviewer) (w : World σ) (s : Schedule) : Task → StateM σ Schedule
  | .advance i => advance r w i s
  | .request t => return request t s
  | .resume t => return resume t s
  | .call t => call r w t s
  | .reply t reply => return ended t reply s
  | .release t reply => return release r w t reply s

def expire (s : Schedule) : Schedule := { s with
  silent := []
  queue := s.queue ++ s.silent.map fun t => (2, .reply t .silence) }

def step (r : Reviewer) (w : World σ) (s : Schedule) : StateM σ Schedule :=
  match s.queue with
  | [] => return expire s
  | (0, t) :: queue => perform r w { s with queue } t
  | (n + 1, t) :: queue => return later n t { s with queue }

def run (r : Reviewer) (w : World σ) : Nat → Schedule → StateM σ Schedule
  | 0, s => return s
  | fuel + 1, s => do if s.course.isDone then return s else run r w fuel (← step r w s)

/-- Enough turns for pieces whose calls give way at most `pauses` times. -/
def turns (pauses : Nat) (c : Course) : Nat :=
  let pieces := (c.files.flatMap fun f => f.rest.flatten).length
  c.files.length + pieces * (pauses + 16)

def review (r : Reviewer) (w : World σ) (pauses : Nat) (files : List (SourceFile × String)) :
    StateM σ Schedule :=
  let course := Course.of r files
  run r w (turns pauses course)
    { course, queue := (List.range files.length).map fun i => (0, .advance i) }

/-- One file after the other, each for itself. What a review that fails leaves under way is given up before
the next begins. -/
def reviewEach (r : Reviewer) (w : World σ) (pauses : Nat) (files : List (SourceFile × String)) :
    StateM σ (List Schedule) := files.mapM fun f => review r w pauses [f]

def results (s : Schedule) : List (Except Failure (List Finding)) :=
  s.course.files.filterMap (·.result)

end Schedule
end CodeAudit
