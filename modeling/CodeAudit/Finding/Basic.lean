import CodeAudit.Failure
import CodeAudit.Json.Value

set_option autoImplicit false

namespace CodeAudit

inductive Category where
  | codeQuality
  | security
  | performance
  | architecture
  | designPattern
  | maintainability
  | readability
  deriving DecidableEq, Repr

namespace Category

def name : Category → String
  | .codeQuality => "code-quality"
  | .security => "security"
  | .performance => "performance"
  | .architecture => "architecture"
  | .designPattern => "design-pattern"
  | .maintainability => "maintainability"
  | .readability => "readability"

def all : List Category :=
  [.codeQuality, .security, .performance, .architecture, .designPattern, .maintainability,
    .readability]

def ofName? (s : String) : Option Category := all.find? fun c => c.name == s

end Category

inductive Severity where
  | high
  | medium
  | low
  deriving DecidableEq, Repr

namespace Severity

def name : Severity → String
  | .high => "high"
  | .medium => "medium"
  | .low => "low"

def all : List Severity := [.high, .medium, .low]

def ofName? (s : String) : Option Severity := all.find? fun v => v.name == s

/-- The place in a presentation: the gravest first. -/
def rank : Severity → Nat
  | .high => 0
  | .medium => 1
  | .low => 2

end Severity

inductive Source where
  | rules
  | model
  deriving DecidableEq, Repr

namespace Source

def name : Source → String
  | .rules => "static-analysis"
  | .model => "ai-review"

def all : List Source := [.rules, .model]

def ofName? (s : String) : Option Source := all.find? fun v => v.name == s

end Source

structure LineRange where
  start : Nat
  stop : Nat
  one_le : 1 ≤ start := by omega
  start_le : start ≤ stop := by omega
  deriving DecidableEq, Repr

namespace LineRange

def single (line : Nat) (h : 1 ≤ line) : LineRange := ⟨line, line, h, Nat.le_refl line⟩

def faults (start stop : Int) : List Fault :=
  let low := (if start < 1 then [Fault.mk [.field "start"] .belowMinimum] else []) ++
    (if stop < 1 then [Fault.mk [.field "end"] .belowMinimum] else [])
  if low.isEmpty && stop < start then [Fault.mk [] .reversed] else low

def of (start stop : Int) : Except Failure LineRange :=
  if h : 1 ≤ start ∧ start ≤ stop then .ok ⟨start.toNat, stop.toNat, by omega, by omega⟩
  else .error (.invalid (faults start stop))

end LineRange

structure Finding where
  category : Category
  severity : Severity
  title : String
  description : String
  path : String
  range : LineRange
  snippet : Option String
  suggestion : Option String
  source : Source
  rule : Option String
  metadata : Fields
  deriving BEq, Repr

namespace LineRange

def toJson (r : LineRange) : Json := .object [("start", .ofNat r.start), ("end", .ofNat r.stop)]

end LineRange

namespace Finding

def toJson (f : Finding) : Json := .object [
  ("category", .text f.category.name), ("severity", .text f.severity.name),
  ("title", .text f.title), ("description", .text f.description),
  ("file_path", .text f.path), ("line_range", f.range.toJson),
  ("code_snippet", .ofOption .text f.snippet), ("suggestion", .ofOption .text f.suggestion),
  ("source", .text f.source.name), ("rule_id", .ofOption .text f.rule),
  ("metadata", .object f.metadata)]

end Finding
end CodeAudit
