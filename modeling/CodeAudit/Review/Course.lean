import CodeAudit.Review.Reviewer

/-!
The course of several reviews that share the permits of one reviewer. A piece of a file needs a permit
while the model is asked about it; who finds none free waits in line, and the first in line gets the
next permit that is given back. The batches of one file follow each other, those of different files
run side by side.
-/
set_option autoImplicit false

namespace CodeAudit

/-- A piece, by its file and its place in the file's batch. -/
structure Ticket where
  file : Nat
  piece : Nat
  deriving DecidableEq, Repr

inductive Stage where
  | submitted
  | waiting
  | calling
  | ended (result : Except Failure Outcome)

namespace Stage

def holds : Stage → Bool
  | .calling => true
  | _ => false

def result? : Stage → Option (Except Failure Outcome)
  | .ended r => some r
  | _ => none

end Stage

/-- How far the review of one file has come: what the batches before have found, the batch that is
under way, the batches to come, and in the end the result. -/
structure FileReview where
  path : String
  language : String
  found : List Finding := []
  batch : List (Chunk × Stage) := []
  rest : List (List Chunk)
  result : Option (Except Failure (List Finding)) := none

namespace FileReview

def results (f : FileReview) : List (Except Failure Outcome) := f.batch.filterMap (·.2.result?)

def isEnded (f : FileReview) : Bool := f.batch.all (·.2.result?.isSome)

def isFailed (f : FileReview) : Bool := f.results.any fun r => r.toOption.isNone

/-- The next batch may follow: this one has ended, or has failed and none will follow. -/
def isDue (f : FileReview) : Bool := f.result.isNone && (f.isFailed || f.isEnded)

def advance (f : FileReview) : FileReview :=
  match Reviewer.gathered f.results with
  | .error e => { f with result := some (.error e) }
  | .ok fs =>
    let found := f.found ++ fs
    match f.rest with
    | [] => { f with found, batch := [], result := some (.ok (Findings.dedupe found)) }
    | b :: rest => { f with found, batch := b.map fun c => (c, .submitted), rest }

def pauses (f : FileReview) : Bool := !f.batch.isEmpty && !f.isFailed && !f.rest.isEmpty

end FileReview

/-- All reviews, the free permits, and the pieces in line for one. -/
structure Course where
  free : Nat
  line : List Ticket := []
  files : List FileReview

namespace Course

def piece? (c : Course) (t : Ticket) : Option (FileReview × Chunk × Stage) := do
  let f ← c.files[t.file]?
  return (f, ← f.batch[t.piece]?)

def setStage (s : Stage) (t : Ticket) (c : Course) : Course := { c with
  files := c.files.modify t.file fun f =>
    { f with batch := f.batch.modify t.piece fun p => (p.1, s) } }

def tickets (c : Course) (file : Nat) : List Ticket :=
  ((c.files[file]?.map (·.batch)).getD []).zipIdx.map fun p => ⟨file, p.2⟩

def held (c : Course) : Nat := (c.files.flatMap (·.batch)).countP (·.2.holds)

def isDone (c : Course) : Bool := c.files.all (·.result.isSome)

def request (t : Ticket) (c : Course) : Course :=
  match c.free with
  | 0 => { setStage .waiting t c with line := c.line ++ [t] }
  | n + 1 => { setStage .calling t c with free := n }

def release (r : Except Failure Outcome) (t : Ticket) (c : Course) : Course :=
  let c := setStage (.ended r) t c
  match c.line with
  | [] => { c with free := c.free + 1 }
  | next :: line => { setStage .calling next c with line }

def advance (file : Nat) (c : Course) : Course := { c with files := c.files.modify file (·.advance) }

def of (r : Reviewer) (files : List (SourceFile × String)) : Course := {
  free := r.maxConcurrent.toNat
  files := files.map fun (f, language) => {
    path := f.path
    language
    rest := Reviewer.batches r.maxConcurrent.toNat (Chunk.split r.window f.text) } }

end Course

/-- One thing that can happen. What does not fit the state of the course cannot. -/
inductive Move where
  | request (t : Ticket)
  | release (t : Ticket) (r : Except Failure Outcome)
  | advance (file : Nat)

namespace Move

def next? (c : Course) : Move → Option Course
  | .request t =>
    match c.piece? t with
    | some (_, _, .submitted) => some (c.request t)
    | _ => none
  | .release t r =>
    match c.piece? t with
    | some (_, _, .calling) => some (c.release r t)
    | _ => none
  | .advance i =>
    match c.files[i]? with
    | some f => if f.isDue then some (c.advance i) else none
    | none => none

end Move
end CodeAudit
