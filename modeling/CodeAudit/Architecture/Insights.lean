import CodeAudit.Json.Value
import CodeAudit.Text.Blank
import CodeAudit.Text.Case
import CodeAudit.Text.Search

/-!
The model's assessment of an architecture. Every object is one: what is not as expected is turned
into text, or left out.
-/
set_option autoImplicit false

namespace CodeAudit

structure Insights where
  pattern : Option String := none
  quality : Option String := none
  issues : List String := []
  suggestions : List String := []
  cycles : List String := []
  graph : Option String := none
  deriving DecidableEq, Repr

namespace Insights

def normalLabel (label : String) : String :=
  String.ofList (Text.substitute ' ' '-' (Text.substitute '_' '-' (Text.lower (Text.strip label.toList))))

def textsOf : Option Json → List String
  | some (.string t) => [t.text]
  | some (.array xs) => xs.map Json.shown
  | _ => []

def textOf : Option Json → Option String
  | none | some .null => none
  | some v => some v.shown

def either (name other : String) (fs : Fields) : Option Json := (fs.get? name).or (fs.get? other)

def ofFields (fs : Fields) : Insights := {
  pattern := textOf (fs.get? "pattern")
  quality := (textOf (fs.get? "quality")).map normalLabel
  issues := textsOf (fs.get? "issues")
  suggestions := textsOf (fs.get? "suggestions")
  cycles := textsOf (either "circularDependencies" "circular_dependencies" fs)
  graph := textOf (either "dependencyGraph" "dependency_graph" fs) }

def toJson (i : Insights) : Json := .object [
  ("pattern", .ofOption .text i.pattern), ("quality", .ofOption .text i.quality),
  ("issues", .texts i.issues), ("suggestions", .texts i.suggestions),
  ("circular_dependencies", .texts i.cycles), ("dependency_graph", .ofOption .text i.graph)]

end Insights

/-- What is known of an architecture when it is scored: insights, or a bare label of its quality. -/
inductive Assessment where
  | insights (i : Insights)
  | label (s : String)
  deriving DecidableEq, Repr

namespace Assessment

def quality? : Assessment → Option String
  | .insights i => i.quality
  | .label s => some s

end Assessment
end CodeAudit
