/-!
Double-precision numbers by exact integer arithmetic. A finite number is a whole count of units, the
unit being 2^-1074; every operation computes the exact quotient of integers and rounds it once, to
the nearest number of 53 significant bits, a tie to the even one.
-/
set_option autoImplicit false

namespace CodeAudit

inductive Binary64 where
  | nan
  | infinite (neg : Bool)
  | finite (neg : Bool) (units : Nat)
  deriving DecidableEq, Repr

namespace Binary64

/-- How many units make one. -/
def one : Nat := Nat.pow 2 1074

def limit : Nat := Nat.pow 2 2098

/-- The integer nearest to `num / den`, a tie going to the even one. -/
def nearest (num den : Nat) : Nat :=
  let q := num / den
  let r := num % den
  if 2 * r < den then q else if den < 2 * r then q + 1 else q + q % 2

def spacing (q : Nat) : Nat := Nat.pow 2 (Nat.log2 q - 52)

/-- The count of units nearest to `num / den` that has at most 53 significant bits. -/
def roundUnits (num den : Nat) : Nat :=
  let s := spacing (num / den)
  nearest num (den * s) * s

def ofUnits (neg : Bool) (num den : Nat) : Binary64 :=
  let u := roundUnits num den
  if u < limit then .finite neg u else .infinite neg

def ofRatio (neg : Bool) (num den : Nat) : Binary64 := ofUnits neg (num * one) den

def zero : Binary64 := .finite false 0

def ofNat (n : Nat) : Binary64 := ofRatio false n 1

def ofInt (i : Int) : Binary64 := ofRatio (decide (i < 0)) i.natAbs 1

/-- `digits · 10 ^ power`. Far outside the range the power is not computed. -/
def ofDecimal (neg : Bool) (digits : Nat) (power : Int) : Binary64 :=
  if digits = 0 then .finite neg 0
  else if power > 400 then .infinite neg
  else if power < -((Nat.log2 digits : Int) + 400) then .finite neg 0
  else if 0 ≤ power then ofRatio neg (digits * Nat.pow 10 power.toNat) 1
  else ofRatio neg digits (Nat.pow 10 (-power).toNat)

def signed (neg : Bool) (n : Nat) : Int := if neg then -(n : Int) else n

def isZero : Binary64 → Bool
  | .finite _ 0 => true
  | _ => false

def isWhole : Binary64 → Bool
  | .finite _ u => u % one == 0
  | _ => false

def truncate? : Binary64 → Option Int
  | .finite neg u => some (signed neg (u / one))
  | _ => none

def floor? : Binary64 → Option Int
  | .finite neg u => some ((signed neg u).fdiv one)
  | _ => none

def nearest? : Binary64 → Option Int
  | .finite neg u => some (signed neg (nearest u one))
  | _ => none

def isNegative : Binary64 → Bool
  | .nan => false
  | .infinite neg => neg
  | .finite neg u => neg && u != 0

def isPositive : Binary64 → Bool
  | .nan => false
  | .infinite neg => !neg
  | .finite neg u => !neg && u != 0

/-- A sum that is exactly zero is negative only if both terms are. -/
def add : Binary64 → Binary64 → Binary64
  | .nan, _ => .nan
  | _, .nan => .nan
  | .infinite a, .infinite b => if a = b then .infinite a else .nan
  | .infinite a, _ => .infinite a
  | _, .infinite b => .infinite b
  | .finite a u, .finite b v =>
    let s := signed a u + signed b v
    if s = 0 then .finite (a && b) 0 else ofUnits (decide (s < 0)) s.natAbs 1

def mul : Binary64 → Binary64 → Binary64
  | .nan, _ => .nan
  | _, .nan => .nan
  | .finite a u, .finite b v => ofUnits (a != b) (u * v) one
  | .infinite a, .infinite b => .infinite (a != b)
  | .infinite a, .finite b v => if v = 0 then .nan else .infinite (a != b)
  | .finite a u, .infinite b => if u = 0 then .nan else .infinite (a != b)

def divNat (x : Binary64) (n : Nat) : Binary64 :=
  match x with
  | .finite neg u => ofUnits neg u n
  | x => x

def half : Binary64 := .finite false (Nat.pow 2 1073)

/-- Equality of values: zero has one value, not-a-number differs from itself. -/
def same : Binary64 → Binary64 → Bool
  | .finite a u, .finite b v => signed a u == signed b v
  | .infinite a, .infinite b => a == b
  | _, _ => false

end Binary64
end CodeAudit
