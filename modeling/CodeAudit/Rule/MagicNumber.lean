import CodeAudit.Number.Literal
import CodeAudit.Rule.Notice

/-!
The rule on numbers without a name. A number passes if it is common, an index, a default, or part of
a constant's declaration. An integer literal beyond the doubles makes the rule fail.
-/
set_option autoImplicit false

namespace CodeAudit.Rule
open Parsed

def commonNumbers : List Int := [0, 1, -1, 2, 10, 100, 1000]

def isCommon (x : Binary64) : Bool :=
  match x.truncate? with
  | some i => x.isWhole && commonNumbers.contains i
  | none => false

/-- The place is what its parent, of one of these kinds, holds under the field. -/
def isHeldAs (field : String) (kinds : List String) (x : Place) : Bool :=
  match x.parent? with
  | none => false
  | some q =>
    kinds.contains q.kind &&
      match q.child? field with
      | some c => c.isAt x
      | none => false

def isArrayIndex (x : Place) : Bool := isHeldAs "index" ["subscript_expression"] x

def isDefaultValue (x : Place) : Bool :=
  isHeldAs "right" ["assignment_pattern"] x ||
    isHeldAs "value" ["required_parameter", "optional_parameter"] x

def isConstant (x : Place) : Bool :=
  match x.ancestors.find? (·.kind == "variable_declarator") with
  | some d => d.declarationKeyword? == some "const"
  | none => false

def magicNotice (x : Binary64) : Notice :=
  let text := Number.shown x
  { code := .magicNumber
    title := s!"Magic number: {text}"
    description := s!"Found hardcoded number {text}. Magic numbers make code harder " ++
      "to understand and maintain."
    suggestion := s!"Extract this number into a named constant:\nconst MEANINGFUL_NAME = {text};"
    metadata := [("value", .float x)] }

def magicNumberAt (p : Parsed) (x : Place) : Except Failure (List Finding) :=
  match Number.literal? (p.between x.node.start x.node.stop) with
  | .error e => .error e
  | .ok none => .ok []
  | .ok (some v) =>
    .ok (if isCommon v || isArrayIndex x || isDefaultValue x || isConstant x then []
      else [p.reportLine x (magicNotice v)])

def magicNumbers (p : Parsed) : Except Failure (List Finding) :=
  ((p.top.walk.filter (·.kind == "number")).mapM (magicNumberAt p)).map List.flatten

end CodeAudit.Rule
