import CodeAudit.Review.Answer
import CodeAudit.Review.Issue
import CodeAudit.Review.Model

set_option autoImplicit false

namespace CodeAudit

inductive Outcome where
  | found (findings : List Finding)
  | failed (fault : ReviewFault) (message : String)
  deriving BEq, Repr

namespace Outcome

def findings : Outcome → List Finding
  | .found fs => fs
  | .failed _ _ => []

def timedOut (timeout : Seconds) : Outcome := .failed .timeout s!"Timed out after {timeout.text}s"

def normalized (c : Chunk) (path : String) (issues : List Fields) : List Finding :=
  issues.filterMap fun i => (Issue.toFinding i c path).toOption

def ofText (limit : Nat) (c : Chunk) (path : String) (answer : List Char) : Except Failure Outcome :=
  match Answer.issues limit answer with
  | .ok issues => .ok (.found (normalized c path issues))
  | .error (.review fault m) => .ok (.failed fault m)
  | .error e => .error e

/-- What a reply comes to. Missing or empty content counts as the empty text; other content that is no
text cannot be read. -/
def ofReply (limit : Nat) (timeout : Seconds) (c : Chunk) (path : String) :
    Reply → Except Failure Outcome
  | .silence => .ok (timedOut timeout)
  | .failure e => .ok (if e.isTimeout then timedOut timeout else .failed .transport e.message)
  | .content (.string t) => ofText limit c path t.text.toList
  | .content v =>
    if v.isGiven then .error (.mismatch "expected string or bytes-like object")
    else ofText limit c path []

end Outcome
end CodeAudit
