import CodeAudit.Finding.Basic
import CodeAudit.Source.File

set_option autoImplicit false

namespace CodeAudit

namespace Finding

/-- What two reports of the same defect agree on. -/
def key (f : Finding) : String × Nat × String := (f.path, f.range.start, f.title)

/-- The gravest first; of the same severity by path. -/
def before (a b : Finding) : Bool :=
  a.severity.rank < b.severity.rank || (a.severity == b.severity && a.path ≤ b.path)

end Finding

namespace Findings

def fresh (seen : List (String × Nat × String)) : List Finding → List Finding
  | [] => []
  | f :: r => if seen.contains f.key then fresh seen r else f :: fresh (f.key :: seen) r

def dedupe (fs : List Finding) : List Finding := fresh [] fs

/-- All findings in the order of presentation; among equals that of the lists, the rules' first. -/
def merge (rules model : List Finding) : List Finding := (rules ++ model).mergeSort Finding.before

def countSeverity (fs : List Finding) (s : Severity) : Nat := fs.countP (·.severity == s)

def countCategory (fs : List Finding) (c : Category) : Nat := fs.countP (·.category == c)

end Findings

structure Summary where
  total : Nat
  rules : Nat
  model : Nat
  bySeverity : List (Severity × Nat)
  byCategory : List (Category × Nat)
  files : Nat
  lines : Nat
  deriving DecidableEq, Repr

namespace Summary

def categories (fs : List Finding) : List (Category × Nat) :=
  (Category.all.map fun c => (c, Findings.countCategory fs c)).filter fun p => p.2 != 0

def of (rules model : List Finding) (files : List SourceFile) : Summary :=
  let all := rules ++ model
  { total := all.length
    rules := rules.length
    model := model.length
    bySeverity := Severity.all.map fun s => (s, Findings.countSeverity all s)
    byCategory := categories all
    files := files.length
    lines := files.foldl (fun n f => n + f.lineCount) 0 }

def toJson (s : Summary) : Json := .object [
  ("total_issues", .ofNat s.total), ("static_issues", .ofNat s.rules), ("ai_issues", .ofNat s.model),
  ("issues_by_severity", .object (s.bySeverity.map fun (v, n) => (v.name, .ofNat n))),
  ("issues_by_category", .object (s.byCategory.map fun (c, n) => (c.name, .ofNat n))),
  ("issues_by_source", .object [("static", .ofNat s.rules), ("ai", .ofNat s.model)]),
  ("files_analyzed", .ofNat s.files), ("total_lines", .ofNat s.lines)]

end Summary
end CodeAudit
