set_option autoImplicit false

namespace CodeAudit.Text.Table

structure Run where
  first : Nat
  last : Nat
  step : Nat
  deriving DecidableEq, Repr

def Run.has (r : Run) (n : Nat) : Bool := r.first ≤ n && n ≤ r.last && (n - r.first) % r.step == 0

structure Shift where
  run : Run
  distance : Int
  deriving DecidableEq, Repr

def member (rs : List Run) (c : Char) : Bool := rs.any fun r => r.has c.toNat

def shifted (ss : List Shift) (c : Char) : Char :=
  match ss.find? fun s => s.run.has c.toNat with
  | some s => Char.ofNat (c.toNat + s.distance).toNat
  | none => c

end CodeAudit.Text.Table
