import CodeAudit.Rule.Notice

set_option autoImplicit false

namespace CodeAudit.Rule
open Parsed

def emptyCatch (p : Parsed) : List Finding :=
  p.top.walk.filterMap fun x =>
    if x.kind == "catch_clause" then
      match x.child? "body" with
      | none => none
      | some body =>
        if body.namedChildren.all (·.kind == "comment") then some (p.report x notice) else none
    else none
where
  notice : Notice := {
    code := .emptyCatch
    title := "Empty catch block"
    description := "Empty catch blocks silently swallow errors, making debugging difficult."
    suggestion := "Log the error or handle it appropriately. At minimum, rethrow or record why it is safe to ignore." }

def varKeyword (p : Parsed) : List Finding :=
  (p.top.walk.filter (·.kind == "variable_declaration")).map (p.report · notice)
where
  notice : Notice := {
    code := .varKeyword
    title := "Use of var keyword"
    description := "var has function scope which can lead to unexpected behavior. Use let or const instead."
    suggestion := "Use const for values that don't change, let for variables that do." }

def isNestedTernary (x : Place) : Bool :=
  x.kind == "ternary_expression" &&
    (Place.kindIs "ternary_expression" (Place.unwrapParens (x.child? "consequence")) ||
      Place.kindIs "ternary_expression" (Place.unwrapParens (x.child? "alternative")))

def nestedTernary (p : Parsed) : List Finding :=
  (p.top.walk.filter isNestedTernary).map (p.report · notice)
where
  notice : Notice := {
    code := .nestedTernary
    title := "Nested ternary expression"
    description := "Nested ternary expressions are hard to read and understand."
    suggestion := "Use if-else statements or extract logic into a separate function." }

def looseEquality (p : Parsed) : List Finding :=
  p.top.walk.filterMap fun x =>
    if x.kind == "binary_expression" then
      match (x.child? "operator").map (·.kind) with
      | some "==" => some (p.report x (notice "==" "==="))
      | some "!=" => some (p.report x (notice "!=" "!=="))
      | _ => none
    else none
where
  notice (op strict : String) : Notice := {
    code := .looseEquality
    title := s!"Use of {op} operator"
    description := "Loose equality can lead to unexpected type coercion."
    suggestion := s!"Use {strict} for strict equality comparison." }

def maxDepth : Nat := 4

def addsLevel (x : Place) : Bool :=
  x.isFunction || x.isLoop || x.kind == "if_statement" || x.kind == "switch_statement" ||
    x.kind == "try_statement"

def depthOf (x : Place) : Nat := x.ancestors.countP addsLevel

def isTooDeep (x : Place) : Bool := (x.isLoop || x.kind == "if_statement") && maxDepth < depthOf x

def firstsBy {α κ : Type} [BEq κ] (key : α → κ) (xs : List α) : List α := go [] xs
where
  go (seen : List κ) : List α → List α
    | [] => []
    | x :: r => if seen.contains (key x) then go seen r else x :: go (key x :: seen) r

def deepNesting (p : Parsed) : List Finding :=
  (firstsBy position (p.top.walk.filter isTooDeep)).map fun x => p.report x (notice (depthOf x))
where
  position (x : Place) : Nat × Nat := (p.row x.node.start, p.column x.node.start)
  notice (depth : Nat) : Notice := {
    code := .deepNesting
    title := "Deeply nested code"
    description := s!"Code is nested {depth} levels deep. Deep nesting makes code hard to follow."
    suggestion := "Consider using early returns, extracting functions, or simplifying logic."
    metadata := [("depth", .ofNat depth)] }

end CodeAudit.Rule
