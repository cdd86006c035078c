import CodeAudit.Architecture.Answer
import CodeAudit.Architecture.Prompt
import CodeAudit.Architecture.Schema
import CodeAudit.Json.Reader
import CodeAudit.Review.Reviewer

set_option autoImplicit false

namespace CodeAudit.Architecture

/-- The insights in an answer. An object that does not pass the check is none. -/
def ofText (limit : Nat) (answer : List Char) : Except Failure (Option Insights) :=
  match Json.ofText limit (objectText answer) with
  | .ok (.object fs) => .ok (Schema.insights (.object fs)).toOption
  | .ok _ | .error .malformed => .ok none
  | .error (.excess e) => .error e.failure

/-- What a reply tells. Missing or empty content counts as the empty text; other content that is no
text cannot be read. -/
def ofReply (limit : Nat) : Reply → Except Failure (Option Insights)
  | .silence | .failure _ => .ok none
  | .content (.string t) => ofText limit t.text.toList
  | .content v =>
    if v.isGiven then
      .error (.attribute s!"'{v.kindName}' object has no attribute 'strip'")
    else ofText limit []

def assess {σ : Type} (timeout : Seconds) (w : World σ) (files : List SourceFile) (project : String) :
    StateM σ (Except Failure (Option Insights)) :=
  if files.isEmpty then return .ok none
  else do return ofReply w.nesting (← Reviewer.ask w timeout (architecturePrompt files project))

end CodeAudit.Architecture
