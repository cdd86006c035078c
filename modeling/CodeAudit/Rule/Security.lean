import CodeAudit.Rule.Notice
import CodeAudit.Text.Case
import CodeAudit.Text.Search

set_option autoImplicit false

namespace CodeAudit.Rule
open Parsed

def evalNotice : Notice := {
  code := .eval
  title := "Dangerous eval() usage detected"
  description := "eval() executes arbitrary code and can lead to code injection attacks."
  suggestion := "Avoid using eval(). Use JSON.parse() for JSON data or an explicit dispatch table for dynamic behavior." }

def functionConstructorNotice : Notice := {
  code := .functionConstructor
  title := "Dangerous Function constructor usage"
  description := "new Function() is similar to eval() and can execute arbitrary code."
  suggestion := "Avoid using the Function constructor with dynamic strings." }

def impliedEvalNotice (name : String) : Notice := {
  code := .impliedEval
  title := s!"{name}() with string argument"
  description := s!"Passing a string to {name}() is evaluated like eval()."
  suggestion := "Pass a function reference instead of a string." }

def documentWriteNotice (method : String) : Notice := {
  code := .documentWrite
  title := s!"document.{method}() usage detected"
  description := "document.write() can be used for XSS attacks and blocks page rendering."
  suggestion := "Use DOM manipulation methods like createElement and appendChild instead." }

def sqlNotice : Notice := {
  code := .sqlInjection
  title := "Potential SQL injection risk"
  description := "Interpolating variables in SQL queries may lead to SQL injection."
  suggestion := "Use parameterized queries or prepared statements instead." }

def markupNotice (code : Code) (property : String) : Notice := {
  code
  title := s!"Potential XSS vulnerability: {property} assignment"
  description := s!"Direct {property} assignment can lead to Cross-Site Scripting (XSS) attacks."
  suggestion := "Use textContent for text, or sanitize HTML with DOMPurify before assignment." }

def unverifiedNotice : Notice := {
  code := .unverifiedConnection
  title := "SSL/TLS verification disabled"
  description := "Disabling SSL verification makes connections vulnerable to MITM attacks."
  suggestion := "Enable SSL verification in production." }

def secretNotice (name : String) : Notice := {
  code := .hardcodedSecret
  title := s!"Potential hardcoded secret in '{name}'"
  description := "Hardcoded secrets in source code can be exposed if the code is shared."
  suggestion := "Use environment variables to store secrets (process.env.SECRET_NAME)." }

def urlNotice : Notice := {
  code := .insecureUrl
  title := "Insecure HTTP URL detected"
  description := "Using HTTP instead of HTTPS can expose data to man-in-the-middle attacks."
  suggestion := "Use HTTPS for all external URLs." }

def isStringKind (kind : String) : Bool := kind == "string" || kind == "template_string"

def calleeName (p : Parsed) (callee : Option Place) : String :=
  match callee with
  | none => ""
  | some c =>
    if c.kind == "identifier" then p.textOf c
    else ((p.memberParts? (some c)).map (·.2)).getD ""

def isConcatenation (x : Option Place) : Bool :=
  match x with
  | none => false
  | some x =>
    x.kind == "binary_expression" && Place.kindIs "+" (x.child? "operator") &&
      let operands := [x.child? "left", x.child? "right"].filterMap id
      operands.any (isStringKind ·.kind) && operands.any (!isStringKind ·.kind)

def codeFromText (p : Parsed) (x : Place) (name : String) : List Finding :=
  let isCall := x.kind == "call_expression"
  if name == "eval" && isCall then [p.reportLine x evalNotice]
  else if name == "Function" then [p.reportLine x functionConstructorNotice]
  else if (name == "setTimeout" || name == "setInterval") && isCall then
    match x.firstArgument? with
    | some a => if isStringKind a.kind then [p.report x (impliedEvalNotice name)] else []
    | none => []
  else []

def documentWrites (p : Parsed) (x : Place) (callee : Option Place) : List Finding :=
  match p.memberParts? callee with
  | some (object, method) =>
    if object == "document" && (method == "write" || method == "writeln") then
      [p.report x (documentWriteNotice method)]
    else []
  | none => []

def queryWords : List String := ["sql", "query", "execute", "raw"]

def namesQuery (name : String) : Bool := queryWords.any (Text.contains (Text.lowered name))

/-- The first argument is a text with values put into it: an interpolated template, or, of a call with
parentheses, a sum. -/
def buildsQuery (x : Place) : Bool :=
  let tagged := Place.kindIs "template_string" (x.child? "arguments")
  let first := x.firstArgument?
  Place.isInterpolated first || (!tagged && isConcatenation first)

def sqlCalls (p : Parsed) (x : Place) (callee : Option Place) : List Finding :=
  if namesQuery (calleeName p callee) && buildsQuery x then [p.reportLine x sqlNotice] else []

def callFindings (p : Parsed) (x : Place) : List Finding :=
  let isNew := x.kind == "new_expression"
  let callee := x.child? (if isNew then "constructor" else "function")
  let plain := match callee with
    | some c => if c.kind == "identifier" then codeFromText p x (p.textOf c) else []
    | none => []
  if isNew then plain else plain ++ documentWrites p x callee ++ sqlCalls p x callee

def disablesChecks (p : Parsed) (name : String) (value : Option Place) : Bool :=
  let name := Text.lowered name
  (Text.contains name "rejectunauthorized" || Text.contains name "verify") &&
    match value with
    | none => false
    | some v => v.kind == "false" || (v.kind == "string" && p.stringValue v == "0")

def assignmentFindings (p : Parsed) (x : Place) : List Finding :=
  match p.memberParts? (x.child? "left") with
  | none => []
  | some (_, property) =>
    (if property == "innerHTML" then [p.reportLine x (markupNotice .innerHtml property)]
      else if property == "outerHTML" then [p.reportLine x (markupNotice .outerHtml property)]
      else []) ++
    if disablesChecks p property (x.child? "right") then [p.reportLine x unverifiedNotice] else []

def pairFindings (p : Parsed) (x : Place) : List Finding :=
  match x.child? "key" with
  | none => []
  | some key =>
    let name := if key.kind == "string" then p.stringValue key else p.textOf key
    if disablesChecks p name (x.child? "value") then [p.reportLine x unverifiedNotice] else []

def secretWords : List String := [
  "password", "passwd", "pwd", "secret", "apikey", "api_key", "token", "auth", "credential",
  "private_key", "privatekey"]

def isTokenChar (c : Char) : Bool := c.isAlphanum || c = '_' || c = '-' || c = '.'

/-- More than ten characters, all of them letters, digits, points, hyphens or underscores; a line feed
may end them. -/
def looksSecret (value : List Char) : Bool :=
  let body := if value.getLast? = some '\n' then value.dropLast else value
  10 < value.length && !body.isEmpty && body.all isTokenChar

def secretFindings (p : Parsed) (x : Place) : List Finding :=
  match x.child? "name", x.child? "value" with
  | some n, some v =>
    if n.kind == "identifier" && v.kind == "string" then
      let name := p.textOf n
      if secretWords.any (Text.contains (Text.lowered name)) && looksSecret (p.stringValue v).toList then
        [p.report x (secretNotice name)]
      else []
    else []
  | _, _ => []

def isInsecureUrl (url : String) : Bool :=
  "http://".toList.isPrefixOf url.toList &&
    !(Text.contains url "localhost" || Text.contains url "127.0.0.1")

def urlFindings (p : Parsed) (x : Place) : List Finding :=
  if isInsecureUrl (p.stringValue x) then [p.report x urlNotice] else []

def securityAt (p : Parsed) (x : Place) : List Finding :=
  if x.kind == "call_expression" || x.kind == "new_expression" then callFindings p x
  else if x.kind == "assignment_expression" then assignmentFindings p x
  else if x.kind == "pair" then pairFindings p x
  else if x.kind == "variable_declarator" then secretFindings p x
  else if x.kind == "string" then urlFindings p x
  else []

def security (p : Parsed) : List Finding := p.top.walk.flatMap (securityAt p)

end CodeAudit.Rule
