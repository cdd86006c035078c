import CodeAudit.Failure
import CodeAudit.Json.Reader
import CodeAudit.Review.Fence

/-!
The list of issues in an answer. The model may wrap it in prose and fenced blocks: the blocks are
searched first, then the whole answer, and the first well-formed list that is empty or holds an
object counts.
-/
set_option autoImplicit false

namespace CodeAudit

namespace Json

def fields? : Json → Option Fields
  | .object fs => some fs
  | _ => none

def Excess.failure : Excess → Failure
  | .digits => .tooManyDigits
  | .nesting => .tooDeep

end Json

namespace Answer

/-- The objects of a value that is an empty list or a list with an object in it. -/
def objects? : Json → Option (List Fields)
  | .array xs =>
    let objects := xs.filterMap Json.fields?
    if xs.isEmpty || !objects.isEmpty then some objects else none
  | _ => none

/-- The list that begins right at the front of the text. -/
def listAt (limit : Nat) (s : List Char) : Except Json.Excess (Option (List Fields)) :=
  match Json.readAt limit s with
  | .ok (v, _) => .ok (objects? v)
  | .error .malformed => .ok none
  | .error (.excess e) => .error e

/-- The first list that begins at a bracket of the text. -/
def search (limit : Nat) : List Char → Except Json.Excess (Option (List Fields))
  | [] => .ok none
  | c :: r =>
    if c = '[' then
      match listAt limit (c :: r) with
      | .ok none => search limit r
      | found => found
    else search limit r

def searchAll (limit : Nat) : List (List Char) → Except Json.Excess (Option (List Fields))
  | [] => .ok none
  | s :: r =>
    match search limit s with
    | .ok none => searchAll limit r
    | found => found

def noList : Failure := .review .noJson "No JSON array found in model response"

def noGoodList : Failure := .review .invalidJson "Model response contains no well-formed JSON array"

def issues (limit : Nat) (s : List Char) : Except Failure (List Fields) :=
  match searchAll limit (Fence.bodies s ++ [s]) with
  | .ok (some objects) => .ok objects
  | .ok none => .error (if s.contains '[' then noGoodList else noList)
  | .error e => .error e.failure

end Answer
end CodeAudit
