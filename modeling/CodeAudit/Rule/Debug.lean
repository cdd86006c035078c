import CodeAudit.Rule.Notice

set_option autoImplicit false

namespace CodeAudit.Rule
open Parsed

def consoleNotice (method : String) : Notice := {
  code := .console
  title := s!"Debug statement: console.{method}()"
  description := s!"Found console.{method}() call. Debug statements should be " ++
    "removed before production."
  suggestion := "Remove console statements or use a proper logging library with log levels." }

def debuggerNotice : Notice := {
  code := .debugger
  title := "Debugger statement found"
  description := "Debugger statements should not be committed to production code."
  suggestion := "Remove debugger statements before committing." }

def debugCode (p : Parsed) : List Finding :=
  p.top.walk.filterMap fun x =>
    if x.kind == "call_expression" then
      match p.memberParts? (x.child? "function") with
      | some (object, method) =>
        if object == "console" then some (p.reportLine x (consoleNotice method)) else none
      | none => none
    else if x.kind == "debugger_statement" then some (p.report x debuggerNotice)
    else none

end CodeAudit.Rule
