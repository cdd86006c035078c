import CodeAudit.Architecture.Insights
import CodeAudit.Merge
import CodeAudit.Rule.FileReport
import CodeAudit.Score.Report

/-!
One analysis of a project: the rules look at every file, the model reviews the files in the languages
it is trusted with and assesses the architecture, and everything found is merged and scored.
Failures of single files are noted. A configuration failure ends the run; any other leaves a failed
result with all findings up to then.
-/
set_option autoImplicit false

namespace CodeAudit

inductive Phase where
  | started
  | filesRead
  | rules
  | review
  | merge
  | architecture
  | scoring
  | completed
  | failed
  deriving DecidableEq, Repr

namespace Phase

def name : Phase → String
  | .started => "started"
  | .filesRead => "files_read"
  | .rules => "static_analysis"
  | .review => "ai_review"
  | .merge => "merge"
  | .architecture => "architecture"
  | .scoring => "scoring"
  | .completed => "completed"
  | .failed => "failed"

def percent : Phase → Nat
  | .started => 5
  | .filesRead => 15
  | .rules => 40
  | .review => 70
  | .merge => 80
  | .architecture => 85
  | .scoring => 95
  | .completed => 100
  | .failed => 100

end Phase

inductive Status where
  | completed
  | failed
  deriving DecidableEq, Repr

namespace Status

def name : Status → String
  | .completed => "completed"
  | .failed => "failed"

end Status

structure RunResult where
  project : String
  status : Status := .completed
  error : Option String := none
  rules : List Finding := []
  model : List Finding := []
  findings : List Finding := []
  fileErrors : List (String × String) := []
  architecture : Option Insights := none
  report : Option Report := none
  summary : Option Summary := none
  deriving Repr

namespace RunResult

/-- Notes an error of a file; a later one for the same path takes the place of an earlier one. -/
def note (path error : String) : List (String × String) → List (String × String)
  | [] => [(path, error)]
  | (p, e) :: r => if p = path then (p, error) :: r else (p, e) :: note path error r

def addFile (f : FileReport) (r : RunResult) : RunResult := { r with
  rules := r.rules ++ f.findings
  fileErrors := match f.trouble? with
    | some e => note f.path e r.fileErrors
    | none => r.fileErrors }

def addReviewed (fs : List Finding) (r : RunResult) : RunResult := { r with model := r.model ++ fs }

/-- The findings of both kinds, merged if that has not been done. -/
def salvage (r : RunResult) : List Finding :=
  if r.findings.isEmpty then Findings.merge r.rules r.model else r.findings

end RunResult

structure ModelSide (σ : Type) where
  review : String → String → String → StateM σ (Except Failure (List Finding))
  assess : List SourceFile → String → StateM σ (Except Failure (Option Insights))

/-- Everyone who takes part in a run. Any of them may fail at any call. -/
structure Collaborators (σ : Type) where
  supports : String → StateM σ (Except Failure Bool) := fun path => return .ok (TreeBuilder.supports path)
  build : String → String → StateM σ (Except Failure (Option Node))
  model : Option (ModelSide σ)
  languages : List String
  score : List Finding → Option Assessment → StateM σ (Except Failure Report)
  save : Option (List Finding → Report → StateM σ (Except Failure Unit))
  progress : Phase → Nat → String → StateM σ (Except Failure Unit)

abbrev RunM (σ : Type) := ExceptT Failure (StateT RunResult (StateM σ))

namespace Run
variable {σ : Type}

def ask {α : Type} (x : StateM σ (Except Failure α)) : RunM σ α := ExceptT.mk (StateT.lift x)

/-- Asks someone whose failures, save those of configuration, only mean that there is no answer. -/
def askLenient {α : Type} (x : StateM σ (Except Failure α)) : RunM σ (Option α) :=
  ExceptT.mk (StateT.lift (do
    match ← x with
    | .ok a => return .ok (some a)
    | .error (.config m) => return .error (.config m)
    | .error _ => return .ok none))

def askFreely {α : Type} (x : StateM σ (Except Failure (Option α))) : RunM σ (Option α) :=
  ExceptT.mk (StateT.lift (do
    match ← x with
    | .ok a => return .ok a
    | .error _ => return .ok none))

def announce (c : Collaborators σ) (p : Phase) (message : String) : RunM σ Unit :=
  ask (c.progress p p.percent message)

def runRulesOn (c : Collaborators σ) : List SourceFile → RunM σ Unit
  | [] => return ()
  | f :: r => do
    let report ← ask (analyzeWith c.supports c.build f)
    modify (RunResult.addFile report)
    runRulesOn c r

def isReviewed (languages : List String) (f : SourceFile) : Bool :=
  languages.contains f.language.name && !(Text.strip f.text.toList).isEmpty

/-- The percentage after `done` of `total` files: 30 points in the same proportion, to the nearest
integer. -/
def reviewPercent (done total : Nat) : Nat :=
  let share := (Binary64.ofRatio false done total).mul (.ofNat 30)
  (Phase.rules.percent + (share.nearest?.getD 0)).toNat

def reviewFiles (c : Collaborators σ) (m : ModelSide σ) (total : Nat) :
    Nat → List SourceFile → RunM σ Unit
  | _, [] => return ()
  | done, f :: r => do
    if isReviewed c.languages f then
      match ← askLenient (m.review f.path f.text f.language.name) with
      | some fs => modify (RunResult.addReviewed fs)
      | none => pure ()
    ask (c.progress .review (reviewPercent (done + 1) total) s!"Reviewed {done + 1}/{total} files")
    reviewFiles c m total (done + 1) r

def review (c : Collaborators σ) (files : List SourceFile) : RunM σ Unit :=
  match c.model with
  | none => return ()
  | some m => reviewFiles c m files.length 0 files

def assess (c : Collaborators σ) (files : List SourceFile) (project : String) :
    RunM σ (Option Insights) :=
  match c.model with
  | none => return none
  | some m => askFreely (m.assess files project)

def save (c : Collaborators σ) (fs : List Finding) (r : Report) : RunM σ Unit :=
  match c.save with
  | none => return ()
  | some f => ask (f fs r)

def body (c : Collaborators σ) (files : List SourceFile) (project : String) : RunM σ Unit := do
  announce c .filesRead s!"{files.length} files to analyze"
  runRulesOn c files
  let ruleCount := (← get).rules.length
  announce c .rules s!"Static analysis found {ruleCount} issues"
  review c files
  let modelCount := (← get).model.length
  announce c .review s!"AI review found {modelCount} issues"
  modify fun r => { r with findings := Findings.merge r.rules r.model }
  let count := (← get).findings.length
  announce c .merge s!"{count} issues after merge"
  let insights ← assess c files project
  modify fun r => { r with architecture := insights }
  announce c .architecture "Architecture analysis done"
  let fs := (← get).findings
  let report ← ask (c.score fs (insights.map .insights))
  modify fun r => { r with report := some report }
  save c fs report
  announce c .scoring s!"Overall score {report.overall}"
  modify fun r => { r with summary := some (Summary.of r.rules r.model files) }
  announce c .completed "Analysis completed"

def failed (e : Failure) (r : RunResult) : RunResult := { r with
  status := .failed
  error := some s!"Analysis of {r.project} failed: {e.message}"
  findings := r.salvage }

def finish (c : Collaborators σ) : Except Failure Unit × RunResult → StateM σ (Except Failure RunResult)
  | (.ok (), r) => return .ok r
  | (.error e, r) =>
    if e.isConfig then return .error e
    else do
      let r := failed e r
      match ← c.progress .failed Phase.failed.percent (r.error.getD "") with
      | .ok () => return .ok r
      | .error e => return .error e

end Run

def analyze {σ : Type} (c : Collaborators σ) (files : List SourceFile) (project : String) :
    StateM σ (Except Failure RunResult) := do
  match ← c.progress .started Phase.started.percent s!"Starting analysis of {project}" with
  | .error e => return .error e
  | .ok () => Run.finish c (← (Run.body c files project).run.run { project })

end CodeAudit
