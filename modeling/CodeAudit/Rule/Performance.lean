import CodeAudit.Rule.Statement

set_option autoImplicit false

namespace CodeAudit.Rule
open Parsed

def searchMethods : List String := ["find", "filter", "indexOf", "includes", "some", "every"]

def blockingMethods : List String := [
  "readFileSync", "writeFileSync", "appendFileSync", "existsSync", "mkdirSync", "readdirSync"]

def searchNotice (method : String) : Notice := {
  code := .searchInLoop
  title := s!"Array.{method}() inside loop"
  description := s!"Calling {method}() inside a loop scans the array on every " ++
    "iteration, which can lead to O(n²) complexity."
  suggestion := "Consider using a Map or Set for O(1) lookups, or restructure the algorithm." }

def waitingName (method : String) : String :=
  let cs := method.toList
  if "Sync".toList.isSuffixOf cs then String.ofList (cs.take (cs.length - 4)) else method

def blockingNotice (method : String) : Notice := {
  code := .blockingFileCall
  title := s!"Synchronous file operation: {method}"
  description := "Synchronous file operations block the event loop and can " ++
    "degrade performance under load."
  suggestion := "Use the async version: " ++ waitingName method ++ " with await or callbacks." }

def isInLoop (x : Place) : Bool := x.ancestors.any (·.isLoop)

def calledMethod? (p : Parsed) (x : Place) : Option String :=
  if x.kind == "call_expression" then (p.memberParts? (x.child? "function")).map (·.2) else none

/-- The calls worth a notice, with it: a scan counts only inside a loop. -/
def slowCall? (p : Parsed) (x : Place) : Option (Place × Notice) :=
  match calledMethod? p x with
  | none => none
  | some method =>
    if searchMethods.contains method then
      if isInLoop x then some (x, searchNotice method) else none
    else if blockingMethods.contains method then some (x, blockingNotice method)
    else none

/-- The bytes of a scan; a blocking call is told apart by its place. -/
def slowKey (x : Place × Notice) : Nat × Nat × List Nat :=
  if x.2.code == .searchInLoop then (x.1.node.start, x.1.node.stop, [])
  else (x.1.node.start, x.1.node.stop, 1 :: x.1.route)

def performance (p : Parsed) : List Finding :=
  (firstsBy slowKey (p.top.walk.filterMap (slowCall? p))).map fun (x, n) => p.reportLine x n

end CodeAudit.Rule
