import CodeAudit.Rule.Catalogue
import CodeAudit.Source.File
import CodeAudit.Tree.Grammar

/-!
What the rules say about one file. A file without a grammar is skipped; one without a tree has an
error and no findings.
-/
set_option autoImplicit false

namespace CodeAudit

structure FileReport where
  path : String
  findings : List Finding := []
  ruleErrors : List String := []
  error : Option Failure := none
  skipped : Bool := false
  deriving Repr

namespace FileReport

def ofTree (f : SourceFile) : Except Failure (Option Node) → FileReport
  | .ok (some root) =>
    let (findings, errors) := runRules (.of f.path f.text root)
    { path := f.path, findings, ruleErrors := errors }
  | _ => { path := f.path, error := some (.unparsed f.path none) }

/-- What the report tells of failures: why there is no tree, else which rules failed. -/
def trouble? (r : FileReport) : Option String :=
  match r.error with
  | some e => some e.message
  | none => if r.ruleErrors.isEmpty then none else some ("; ".intercalate r.ruleErrors)

end FileReport

def FileReport.skip (f : SourceFile) : FileReport := { path := f.path, skipped := true }

def analyzeWith {m : Type → Type} [Monad m] (supports : String → m (Except Failure Bool))
    (build : String → String → m (Except Failure (Option Node))) (f : SourceFile) :
    m (Except Failure FileReport) := do
  match ← supports f.path with
  | .error e => return .error e
  | .ok false => return .ok (.skip f)
  | .ok true => return .ok (.ofTree f (← build f.text f.path))

def analyzeFile (b : TreeBuilder) (f : SourceFile) : FileReport :=
  if TreeBuilder.supports f.path then .ofTree f (b.parse f.text f.path) else .skip f

end CodeAudit
