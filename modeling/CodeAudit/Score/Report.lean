import CodeAudit.Score.Average

set_option autoImplicit false

namespace CodeAudit

structure Metrics where
  total : Nat
  high : Nat
  medium : Nat
  low : Nat
  functionSize : Int
  complexity : Int
  smells : Nat
  vulnerabilities : Nat
  deriving DecidableEq, Repr

namespace Metrics

def of (fs : List Finding) : Except Failure Metrics := do
  let functionSize ← Score.average (Score.measures "functionSize" fs)
  let complexity ← Score.average (Score.measures "complexity" fs)
  return {
    total := fs.length
    high := Findings.countSeverity fs .high
    medium := Findings.countSeverity fs .medium
    low := Findings.countSeverity fs .low
    functionSize
    complexity
    smells := Findings.countCategory fs .codeQuality
    vulnerabilities := Findings.countCategory fs .security }

def toJson (m : Metrics) : Json := .object [
  ("total_issues", .ofNat m.total), ("high_severity_issues", .ofNat m.high),
  ("medium_severity_issues", .ofNat m.medium), ("low_severity_issues", .ofNat m.low),
  ("avg_function_size", .int m.functionSize), ("avg_complexity", .int m.complexity),
  ("code_smells", .ofNat m.smells), ("security_vulnerabilities", .ofNat m.vulnerabilities)]

end Metrics

structure Report where
  overall : Nat
  categories : List (Category × Nat)
  rules : Nat
  model : Nat
  architecture : Nat
  metrics : Metrics
  deriving DecidableEq, Repr

namespace Report

def of (fs : List Finding) (a : Option Assessment) : Except Failure Report := do
  let rules := Score.ruleScore (fs.filter (·.source == .rules))
  let model := Score.modelScore (fs.filter (·.source == .model))
  let architecture := Score.architectureScore a
  let overall ← Score.overall (.ofNat rules) (.ofNat model) (.ofNat architecture)
  let metrics ← Metrics.of fs
  return {
    overall
    categories := Score.scoredCategories.map fun c => (c, Score.categoryScore fs c)
    rules
    model
    architecture
    metrics }

def toJson (r : Report) : Json := .object [
  ("overall_score", .ofNat r.overall),
  ("category_scores", .object (r.categories.map fun (c, n) => (c.name, .ofNat n))),
  ("breakdown", .object [("static_score", .ofNat r.rules), ("ai_score", .ofNat r.model),
    ("architecture_score", .ofNat r.architecture)]),
  ("metrics", r.metrics.toJson)]

end Report
end CodeAudit
