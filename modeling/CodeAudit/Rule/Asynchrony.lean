import CodeAudit.Rule.Notice

set_option autoImplicit false

namespace CodeAudit.Rule
open Parsed

def asyncNotice (name : String) : Notice := {
  code := .uncaughtAsync
  title := s!"Async function '{name}' without error handling"
  description := "Async functions should have try-catch blocks to handle potential errors."
  suggestion := "Wrap async code in try-catch:\n" ++
    "try \x7b\n  // async code\n\x7d catch (error) \x7b\n  // handle error\n\x7d" }

def promiseNotice : Notice := {
  code := .uncaughtPromise
  title := "Promise without error handling"
  description := "Promise chain lacks .catch() for error handling."
  suggestion := "Add .catch() to handle promise rejections, or use async/await with try-catch." }

def hasTry (x : Place) : Bool := x.scope.any (·.kind == "try_statement")

def isUncaughtAsync (x : Place) : Bool :=
  x.isFunction && x.isAsync &&
    match x.child? "body" with
    | some body => body.kind == "statement_block" && !hasTry body
    | none => false

/-- From a call outward along the chain of calls on its result, some call is of `catch`. The trail is
read two parents at a time: the member access, and the call of that member. -/
def chainCatches (p : Parsed) : List (Nat × Node) → Bool
  | [] => false
  | (_, m) :: [] => m.kind == "member_expression" && isCatch ⟨m, []⟩
  | (_, m) :: (i, c) :: t =>
    m.kind == "member_expression" &&
      (isCatch ⟨m, (i, c) :: t⟩ || (c.kind == "call_expression" && chainCatches p t))
where
  isCatch (m : Place) : Bool := p.textOf? (m.child? "property") == "catch"

def isUncaughtPromise (p : Parsed) (x : Place) : Bool :=
  match p.memberParts? (x.child? "function") with
  | some (_, method) => method == "then" && !chainCatches p x.trail
  | none => false

def errorHandling (p : Parsed) : List Finding :=
  p.top.walk.filterMap fun x =>
    if x.isFunction && x.isAsync then
      if isUncaughtAsync x then some (p.reportStart x (asyncNotice (p.functionName x))) else none
    else if x.kind == "call_expression" && isUncaughtPromise p x then
      some (p.reportLine x promiseNotice)
    else none

end CodeAudit.Rule
