import CodeAudit.Merge
import CodeAudit.Review.Outcome
import CodeAudit.Review.Prompt
import CodeAudit.Settings.Basic

set_option autoImplicit false

namespace CodeAudit

structure Reviewer where
  window : Window
  maxConcurrent : Int
  delay : Seconds
  timeout : Seconds
  maxPromptChars : Int
  deriving DecidableEq, Repr

structure ReviewerOptions where
  size : Option Int := none
  overlap : Option Int := none
  maxConcurrent : Option Int := none
  delay : Option Seconds := none
  timeout : Option Seconds := none
  maxPromptChars : Option Int := none
  deriving Repr

namespace Reviewer

/-- A choice, unless it is missing or zero. -/
def chosen (choice : Option Int) (default : Int) : Int := (choice.filter (· != 0)).getD default

def chosenTime (choice : Option Seconds) (default : Seconds) : Seconds :=
  (choice.filter fun s => !s.isZero).getD default

def of (s : Settings) (o : ReviewerOptions) : Except Failure Reviewer := do
  let window ← Window.of (o.size.getD s.chunkSize) (o.overlap.getD s.chunkOverlap)
  return {
    window
    maxConcurrent := chosen o.maxConcurrent s.maxConcurrent
    delay := o.delay.getD (.real s.batchDelay)
    timeout := chosenTime o.timeout (.real s.timeout)
    maxPromptChars := chosen o.maxPromptChars s.maxPromptChars }

def noPermits : Outcome := .failed .transport "Semaphore initial value must be >= 0"

def ask {σ : Type} (w : World σ) (timeout : Seconds) (prompt : String) : StateM σ Reply :=
  if timeout.isSpent then return .silence
  else do return (← w.call prompt).reply

def reviewChunk {σ : Type} (r : Reviewer) (w : World σ) (path language : String) (c : Chunk) :
    StateM σ (Except Failure Outcome) :=
  if r.maxConcurrent < 0 then return .ok noPermits
  else do
    let reply ← ask w r.timeout (reviewPrompt c path language r.maxPromptChars)
    return Outcome.ofReply w.nesting r.timeout c path reply

def batches {α : Type} (size : Nat) (xs : List α) : List (List α) :=
  match size, xs with
  | 0, _ => []
  | _, [] => []
  | n + 1, x :: r => (x :: r.take n) :: batches (n + 1) (r.drop n)
termination_by xs.length
decreasing_by simp only [List.length_drop, List.length_cons]; omega

def gathered : List (Except Failure Outcome) → Except Failure (List Finding)
  | [] => .ok []
  | .ok o :: r => (gathered r).map (o.findings ++ ·)
  | .error e :: _ => .error e

def reviewBatches {σ : Type} (r : Reviewer) (w : World σ) (path language : String) :
    List (List Chunk) → StateM σ (Except Failure (List Finding))
  | [] => return .ok []
  | b :: rest => do
    match gathered (← b.mapM (r.reviewChunk w path language)) with
    | .error e => return .error e
    | .ok fs =>
      if !rest.isEmpty && r.delay.isPositive then w.sleep r.delay
      return (← reviewBatches r w path language rest).map (fs ++ ·)

def reviewFile {σ : Type} (r : Reviewer) (w : World σ) (path text language : String) :
    StateM σ (Except Failure (List Finding)) := do
  let result ← r.reviewBatches w path language
    (batches r.maxConcurrent.toNat (Chunk.split r.window text))
  return result.map Findings.dedupe

end Reviewer
end CodeAudit
