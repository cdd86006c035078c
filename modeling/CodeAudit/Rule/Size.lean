import CodeAudit.Rule.Notice

set_option autoImplicit false

namespace CodeAudit.Rule
open Parsed

def decisionKinds : List String := [
  "if_statement", "ternary_expression", "for_statement", "for_in_statement", "while_statement",
  "do_statement", "switch_case", "catch_clause"]

def isDecision (x : Place) : Bool :=
  decisionKinds.contains x.kind ||
    (x.kind == "binary_expression" &&
      match x.child? "operator" with
      | some op => op.kind == "&&" || op.kind == "||" || op.kind == "??"
      | none => false)

/-- One more than the forks of a function, those of functions inside it aside. -/
def functionComplexity (x : Place) : Nat := 1 + x.scope.countP isDecision

def fileComplexity (x : Place) : Nat := 1 + x.walk.countP isDecision

def maxComplexity : Nat := 10
def maxFileComplexity : Nat := 50
def maxFunctionLines : Nat := 50
def maxClassLines : Nat := 300
def maxClassMembers : Nat := 20

def complexFunctionNotice (name : String) (complexity : Nat) : Notice := {
  code := .complexFunction
  title := s!"High cyclomatic complexity in function '{name}'"
  description := s!"This function has a cyclomatic complexity of {complexity}. " ++
    "High complexity makes code harder to test and maintain."
  suggestion := "Reduce complexity by:\n- Extracting conditional logic into separate functions\n" ++
    "- Using early returns\n- Simplifying nested conditions\n" ++
    "- Breaking down complex logic into smaller pieces"
  metadata := [("complexity", .ofNat complexity), ("function", .text name)]
  grave := maxComplexity * 2 < complexity }

def complexFileNotice (complexity : Nat) : Notice := {
  code := .complexFile
  title := "High overall file complexity"
  description := s!"This file has an aggregate cyclomatic complexity of {complexity}. " ++
    "Consider refactoring."
  suggestion := "Break this file into smaller modules with focused responsibilities."
  metadata := [("fileComplexity", .ofNat complexity)] }

def complexFunctions (p : Parsed) : List Finding :=
  p.top.walk.filterMap fun x =>
    if x.isFunction && maxComplexity < functionComplexity x then
      some (p.reportStart x (complexFunctionNotice (p.functionName x) (functionComplexity x)))
    else none

def complexFile (p : Parsed) : List Finding :=
  let complexity := fileComplexity p.top
  if maxFileComplexity < complexity then
    [(complexFileNotice complexity).toFinding p.path (.single 1 (by decide)) none]
  else []

def complexity (p : Parsed) : List Finding := complexFunctions p ++ complexFile p

/-- The number of lines from the first to the last one of a place. A place that ends before it begins
has fewer than one. -/
def lineSpan (p : Parsed) (x : Place) : Int := p.stopRow x - p.startRow x + 1

def longFunctionNotice (name : String) (lines : Int) : Notice := {
  code := .longFunction
  title := s!"Function '{name}' is too long"
  description := s!"This function has {lines} lines. Functions should ideally be " ++
    s!"under {maxFunctionLines} lines for better maintainability."
  suggestion := "Consider breaking this function into smaller, more focused functions. " ++
    "Each function should do one thing well."
  metadata := [("functionSize", .int lines), ("function", .text name)]
  grave := maxFunctionLines * 2 < lines }

def functionSize (p : Parsed) : List Finding :=
  p.top.walk.filterMap fun x =>
    if x.isFunction && maxFunctionLines < lineSpan p x then
      some (p.report x (longFunctionNotice (p.functionName x) (lineSpan p x)))
    else none

def isClass (x : Place) : Bool :=
  x.kind == "class_declaration" || x.kind == "class" || x.kind == "abstract_class_declaration"

def isMember (x : Place) : Bool :=
  x.kind == "method_definition" || x.kind == "field_definition" ||
    x.kind == "public_field_definition" || x.kind == "abstract_method_signature"

def memberCount (x : Place) : Nat :=
  match x.child? "body" with
  | some body => body.namedChildren.countP isMember
  | none => 0

def largeClassNotice (name : String) (lines : Int) (members : Nat) : Notice := {
  code := .largeClass
  title := s!"Class '{name}' is too large"
  description := s!"This class has {lines} lines and {members} members. Large classes " ++
    "are hard to maintain and often violate the Single Responsibility Principle."
  suggestion := "Consider splitting this class into smaller, more focused classes. " ++
    "Each class should have a single, well-defined responsibility."
  metadata := [("lines", .int lines), ("members", .ofNat members)]
  grave := maxClassLines * 2 < lines || maxClassMembers * 2 < members }

def className (p : Parsed) (x : Place) : String := ((x.child? "name").map p.textOf).getD "anonymous"

def classSize (p : Parsed) : List Finding :=
  p.top.walk.filterMap fun x =>
    if isClass x && (maxClassLines < lineSpan p x || maxClassMembers < memberCount x) then
      some (p.report x (largeClassNotice (className p x) (lineSpan p x) (memberCount x)))
    else none

end CodeAudit.Rule
