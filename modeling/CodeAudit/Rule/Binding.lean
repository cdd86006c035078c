import CodeAudit.Rule.Notice
import CodeAudit.Text.Case

set_option autoImplicit false

namespace CodeAudit.Rule
open Parsed

def boundName? (x : Place) : Option Place :=
  if x.kind == "variable_declarator" then
    (x.child? "name").filter (·.kind == "identifier")
  else none

/-- The place is the target of a plain assignment, which writes without reading. -/
def isAssigned (x : Place) : Bool :=
  match x.parent? with
  | none => false
  | some a =>
    a.kind == "assignment_expression" &&
      match a.child? "left" with
      | some l => l.isAt x
      | none => false

/-- The names that are read somewhere in the file, by any of the places that name one without binding
or assigning it. -/
def namesRead (p : Parsed) : List String :=
  let places := p.top.walk
  let bound := places.filterMap fun x => (boundName? x).map (·.route)
  (places.filter fun x =>
    (x.kind == "identifier" || x.kind == "shorthand_property_identifier") &&
      !bound.contains x.route && !isAssigned x).map p.textOf

def unusedVariables (p : Parsed) : List Finding :=
  let names := namesRead p
  p.top.walk.filterMap fun x =>
    match (boundName? x).map p.textOf with
    | none => none
    | some name =>
      if name.toList.head? == some '_' || names.contains name then none
      else some (p.report x (notice name))
where
  notice (name : String) : Notice := {
    code := .unusedVariable
    title := s!"Unused variable '{name}'"
    description := "This variable is declared but never used."
    suggestion := "Remove unused variables or prefix with underscore if intentionally unused." }

def goodLetters : List Char := ['i', 'j', 'k', 'x', 'y', 'z', '_']

def letterNotice (name : String) : Notice := {
  code := .naming
  title := s!"Single-letter variable name '{name}'"
  description := s!"Variable '{name}' has a non-descriptive single-letter name."
  suggestion := "Use descriptive variable names that clearly indicate the purpose or content of the variable." }

def capitalsNotice (name : String) : Notice := {
  code := .naming
  title := s!"Uppercase variable '{name}' should be const"
  description := s!"Variable '{name}' uses uppercase naming but is not declared as const."
  suggestion := "Use const for constants with uppercase names, or use camelCase for regular variables." }

def functionNotice (name : String) : Notice := {
  code := .naming
  title := s!"Function '{name}' should start with lowercase"
  description := "Function names should start with lowercase unless they are constructors."
  suggestion := "Use camelCase for function names (e.g., myFunction instead of MyFunction)." }

def classNotice (name : String) : Notice := {
  code := .naming
  title := s!"Class '{name}' should start with uppercase"
  description := "Class names should follow PascalCase convention."
  suggestion := "Use PascalCase for class names (e.g., MyClass instead of myClass)." }

def variableNotice? (name : String) (keyword : Option String) : Option Notice :=
  match name.toList with
  | [] => none
  | [c] => if goodLetters.contains c then none else some (letterNotice name)
  | cs => if Text.isUpperText cs && keyword != some "const" then some (capitalsNotice name) else none

def startsWith (p : Char → Bool) (name : String) : Bool := (name.toList.head?.map p).getD false

def namingNotice? (p : Parsed) (x : Place) : Option Notice :=
  if x.kind == "variable_declarator" then
    (boundName? x).bind fun n => variableNotice? (p.textOf n) x.declarationKeyword?
  else if x.kind == "function_declaration" || x.kind == "generator_function_declaration" then
    let name := p.textOf? (x.child? "name")
    if startsWith Text.isUpper name then some (functionNotice name) else none
  else if x.kind == "class_declaration" || x.kind == "abstract_class_declaration" then
    let name := p.textOf? (x.child? "name")
    if startsWith Text.isLower name then some (classNotice name) else none
  else none

def naming (p : Parsed) : List Finding :=
  p.top.walk.filterMap fun x => (namingNotice? p x).map (p.report x)

end CodeAudit.Rule
