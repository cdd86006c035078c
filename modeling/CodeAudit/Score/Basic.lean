import CodeAudit.Architecture.Insights
import CodeAudit.Merge

/-!
Scores from 0 to 100. Every finding costs points by its severity; the composite weighs the rules'
findings and the model's with two fifths each and the architecture with one.
-/
set_option autoImplicit false

namespace CodeAudit.Score

structure Weights where
  high : Nat
  medium : Nat
  low : Nat
  deriving DecidableEq, Repr

def ruleWeights : Weights := ⟨10, 5, 2⟩

def modelWeights : Weights := ⟨12, 6, 2⟩

def categoryWeights : Weights := ⟨15, 8, 3⟩

def penalty (w : Weights) (fs : List Finding) : Nat :=
  w.high * Findings.countSeverity fs .high + w.medium * Findings.countSeverity fs .medium +
    w.low * Findings.countSeverity fs .low

def score (w : Weights) (fs : List Finding) : Nat := 100 - penalty w fs

def ruleScore (fs : List Finding) : Nat := score ruleWeights fs

def modelScore (fs : List Finding) : Nat := score modelWeights fs

def categoryScore (fs : List Finding) (c : Category) : Nat :=
  score categoryWeights (fs.filter (·.category == c))

def scoredCategories : List Category :=
  [.maintainability, .readability, .security, .performance, .architecture]

/-- The score of an architecture about which nothing usable is known. -/
def neutral : Nat := 75

def ofLabel (label : String) : Nat :=
  match Insights.normalLabel label with
  | "excellent" => 95
  | "good" => 80
  | "needs-improvement" => 60
  | "poor" => 40
  | _ => neutral

def architectureScore (a : Option Assessment) : Nat :=
  match a.bind Assessment.quality? with
  | some label => ofLabel label
  | none => neutral

def roundHalfUp (x : Binary64) : Except Failure Int :=
  match (x.add .half).floor? with
  | some i => .ok i
  | none => .error (if x = .nan then .undefinedInteger else .infiniteInteger)

def twoFifths : Binary64 := .ofDecimal false 4 (-1)

def oneFifth : Binary64 := .ofDecimal false 2 (-1)

def composite (rules model architecture : Binary64) : Binary64 :=
  ((rules.mul twoFifths).add (model.mul twoFifths)).add (architecture.mul oneFifth)

def clamp (i : Int) : Nat := (min 100 i).toNat

def overall (rules model architecture : Binary64) : Except Failure Nat :=
  (roundHalfUp (composite rules model architecture)).map clamp

end CodeAudit.Score
