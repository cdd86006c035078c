import CodeAudit.Finding.Basic
import CodeAudit.Json.Reader
import CodeAudit.Review.Chunk
import CodeAudit.Text.Blank
import CodeAudit.Text.Case

/-!
From an issue as the model reports it to a finding in the file. Whatever is missing or unknown gets a
default; only a line number that is no number at all is refused.
-/
set_option autoImplicit false

namespace CodeAudit.Issue

def leadingInteger (s : List Char) : Except Failure (Option Int) :=
  let s := s.dropWhile Text.isBlank
  let (neg, s) := match s with
    | '-' :: r => (true, r)
    | r => (false, r)
  let digits := s.takeWhile Text.isDecimal
  if digits.isEmpty then .ok none
  else if Json.maxDigits < digits.length then .error .tooManyDigits
  else .ok (some (Binary64.signed neg (Text.valueIn 10 (digits.map Text.plainDigit))))

def toInteger : Json → Except Failure (Option Int)
  | .int i => .ok (some i)
  | .float (.infinite _) => .error .infiniteInteger
  | .float .nan => .error .undefinedInteger
  | .float x => .ok x.truncate?
  | .string t => leadingInteger t.text.toList
  | _ => .ok none

/-- The line of the file that a line of the piece is; what lies outside the piece becomes its first or
last line. -/
def lineOf (c : Chunk) (relative : Option Int) : Int :=
  let given := match relative with
    | none | some 0 => 1
    | some i => i
  min (max (max given 1 + max (c.first - 1) 0) c.first) c.last

def lineRange (c : Chunk) (reference : Json) : Except Failure LineRange := do
  let (start, stop) ← match reference with
    | .object fs => do
      let start ← toInteger ((Fields.get? "start" fs).getD .null)
      let stop ← toInteger ((Fields.get? "end" fs).getD .null)
      pure (start, stop)
    | v => do
      let line ← toInteger v
      pure (line, line)
  let first := lineOf c start
  LineRange.of first (max first (lineOf c (stop.or start)))

def labelled {α : Type} (ofName? : String → Option α) (default : α) : Option Json → α
  | some (.string t) => (ofName? (Text.lowered (Text.trimmed t.text))).getD default
  | _ => default

def textOr (default : String) : Option Json → String
  | none | some .null => default
  | some v =>
    let text := Text.trimmed v.shown
    if text == "" then default else text

def given? (v : Option Json) : Option Json := v.filter Json.isGiven

/-- The reference to lines that counts: under the first of the three names that is there. -/
def reference (raw : Fields) : Json :=
  (((raw.get? "lineNumber").or (raw.get? "line_number")).or (raw.get? "line")).getD .null

def toFinding (raw : Fields) (c : Chunk) (path : String) : Except Failure Finding := do
  let range ← lineRange c (reference raw)
  return {
    category := labelled Category.ofName? .codeQuality (raw.get? "category")
    severity := labelled Severity.ofName? .medium (raw.get? "severity")
    title := textOr "Untitled Issue" (raw.get? "title")
    description := textOr "No description provided." (raw.get? "description")
    path
    range
    snippet := ((given? (raw.get? "codeSnippet")).or (given? (raw.get? "code_snippet"))).map Json.shown
    suggestion := (given? (raw.get? "suggestion")).map fun v => Text.trimmed v.shown
    source := .model
    rule := none
    metadata := [("chunk_index", .int c.index)] }

end CodeAudit.Issue
