import CodeAudit.Rule.Asynchrony
import CodeAudit.Rule.Binding
import CodeAudit.Rule.Debug
import CodeAudit.Rule.MagicNumber
import CodeAudit.Rule.Marker
import CodeAudit.Rule.Performance
import CodeAudit.Rule.Security
import CodeAudit.Rule.Size
import CodeAudit.Rule.Statement

set_option autoImplicit false

namespace CodeAudit

/-- How a rule looks at a file: at its tree, which it may fail to make sense of, or at its text. -/
inductive Check where
  | tree (run : Parsed → Except Failure (List Finding))
  | text (run : String → String → List Finding)

structure Rule where
  name : String
  check : Check

namespace Rule

def run (r : Rule) (p : Parsed) : Except Failure (List Finding) :=
  match r.check with
  | .tree f => f p
  | .text f => .ok (f p.path p.text)

def sure (name : String) (f : Parsed → List Finding) : Rule := ⟨name, .tree fun p => .ok (f p)⟩

def all : List Rule := [
  sure "check_empty_catch" emptyCatch,
  sure "check_unused_variables" unusedVariables,
  sure "check_var_declarations" varKeyword,
  sure "check_nested_ternary" nestedTernary,
  sure "check_nesting_depth" deepNesting,
  sure "check_loose_equality" looseEquality,
  sure "check_complexity" complexity,
  sure "check_function_size" functionSize,
  sure "check_class_size" classSize,
  ⟨"check_magic_numbers", .tree magicNumbers⟩,
  sure "check_naming" naming,
  sure "check_debug_code" debugCode,
  sure "check_security" security,
  sure "check_performance" performance,
  sure "check_error_handling" errorHandling,
  ⟨"check_warning_comments", .text warningComments⟩]

def ofName? (name : String) : Option Rule := all.find? fun r => r.name == name

end Rule

def outcomes (p : Parsed) : List (Rule × Except Failure (List Finding)) :=
  Rule.all.map fun r => (r, r.run p)

/-- The findings of all rules in a file, and what each failed rule has to say. A failed rule adds no
findings and keeps no other from running. -/
def runRules (p : Parsed) : List Finding × List String :=
  let rs := outcomes p
  (rs.flatMap findings, rs.filterMap error?)
where
  findings : Rule × Except Failure (List Finding) → List Finding
    | (_, .ok fs) => fs
    | (_, .error _) => []
  error? : Rule × Except Failure (List Finding) → Option String
    | (_, .ok _) => none
    | (r, .error e) => some (r.name ++ ": " ++ e.message)

end CodeAudit
