import CodeAudit.Architecture.Insights
import CodeAudit.Finding.Schema

set_option autoImplicit false

namespace CodeAudit

namespace Json

def worded : Json → Json
  | .string t => .string t
  | v => .text v.spelled

def wordedOrNull : Json → Json
  | .null => .null
  | v => v.worded

/-- A value as a list of texts; what is neither a text nor a list says nothing. -/
def wordedList : Json → Json
  | .string t => .array [.string t]
  | .array xs => .array (xs.map worded)
  | _ => .array []

def label : Json → Json
  | .null => .null
  | v => .text (Insights.normalLabel v.shown)

end Json

namespace Schema

def insights (v : Json) : Checked Insights :=
  match record v with
  | .error _ => fail .notRecord
  | .ok fs =>
    let said (v : Json) := optional text v.wordedOrNull
    let listed (v : Json) := texts v.wordedList
    let build := both Insights.mk (defaulted "pattern" none said fs)
      (defaulted "quality" none (fun v => optional text v.label) fs)
    let build := apply build (defaulted "issues" [] listed fs)
    let build := apply build (defaulted "suggestions" [] listed fs)
    let build := apply build
      (defaultedEither "circularDependencies" "circular_dependencies" [] listed fs)
    apply build (defaultedEither "dependencyGraph" "dependency_graph" none said fs)

end Schema
end CodeAudit
