import CodeAudit.Score.Basic

set_option autoImplicit false

namespace CodeAudit.Score

inductive Total where
  | whole (i : Int)
  | real (x : Binary64)
  deriving DecidableEq, Repr

namespace Total

def kind : Total → String
  | .whole _ => "int"
  | .real _ => "float"

def toDouble (i : Int) : Except Failure Binary64 :=
  match Binary64.ofInt i with
  | .infinite _ => .error .integerTooLarge
  | x => .ok x

def double : Total → Except Failure Binary64
  | .whole i => toDouble i
  | .real x => .ok x

def plus : Total → Total → Except Failure Total
  | .whole i, .whole j => .ok (.whole (i + j))
  | .whole i, .real y => (toDouble i).map fun x => .real (x.add y)
  | .real x, .whole j => (toDouble j).map fun y => .real (x.add y)
  | .real x, .real y => .ok (.real (x.add y))

def measure? : Json → Option Total
  | .int i => some (.whole i)
  | .bool b => some (.whole (if b then 1 else 0))
  | .float x => some (.real x)
  | _ => none

def plusValue (t : Total) (v : Json) : Except Failure Total :=
  match measure? v with
  | some m => t.plus m
  | none =>
    .error (.mismatch s!"unsupported operand type(s) for +: '{t.kind}' and '{v.kindName}'")

def dividedBy (t : Total) (n : Nat) : Except Failure Binary64 :=
  match t with
  | .real x => .ok (x.divNat n)
  | .whole i =>
    match Binary64.ofRatio (decide (i < 0)) i.natAbs n with
    | .infinite _ => .error (.overflow "integer division result too large for a float")
    | x => .ok x

end Total

def measures (name : String) (fs : List Finding) : List Json :=
  (fs.filterMap fun f => f.metadata.get? name).filter Json.isGiven

def average (vs : List Json) : Except Failure Int :=
  if vs.isEmpty then .ok 0
  else do
    let t ← vs.foldlM Total.plusValue (.whole 0)
    roundHalfUp (← t.dividedBy vs.length)

end CodeAudit.Score
