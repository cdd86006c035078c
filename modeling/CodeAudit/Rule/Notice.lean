import CodeAudit.Rule.Code
import CodeAudit.Tree.Query

set_option autoImplicit false

namespace CodeAudit

structure Notice where
  code : Code
  title : String
  description : String
  suggestion : String
  metadata : Fields := []
  grave : Bool := false
  deriving Repr

namespace Notice

def severity (n : Notice) : Severity := if n.grave then .high else n.code.severity

def toFinding (n : Notice) (path : String) (range : LineRange) (snippet : Option String) : Finding :=
  ⟨n.code.category, n.severity, n.title, n.description, path, range, snippet, some n.suggestion,
    .rules, some n.code.name, n.metadata⟩

end Notice

namespace Parsed

/-- The lines that a place covers; at least the one on which it begins. -/
def linesOf (p : Parsed) (x : Place) : LineRange :=
  ⟨p.startRow x + 1, max (p.stopRow x + 1) (p.startRow x + 1), by omega, by omega⟩

def firstLineOf (p : Parsed) (x : Place) : LineRange := .single (p.startRow x + 1) (by omega)

def report (p : Parsed) (x : Place) (n : Notice) : Finding := n.toFinding p.path (p.linesOf x) none

def reportLine (p : Parsed) (x : Place) (n : Notice) : Finding :=
  n.toFinding p.path (p.linesOf x) (some (p.lineOf x))

def reportStart (p : Parsed) (x : Place) (n : Notice) : Finding :=
  n.toFinding p.path (p.firstLineOf x) none

/-- The lines for a finding when some are given: a missing or zero first line is that of the place, or
1; the last line is never before the first. -/
def chosenLines (p : Parsed) (x : Option Place) (start stop : Option Int) :
    Except Failure LineRange :=
  let start := start.or (x.map fun x => p.startRow x + 1)
  let stop := stop.or (x.map fun x => p.stopRow x + 1)
  let given (i : Option Int) (other : Int) : Int := match i with
    | none | some 0 => other
    | some i => i
  let first := given start 1
  LineRange.of first (max (given stop first) first)

end Parsed
end CodeAudit
