import CodeAudit.Json.Value

set_option autoImplicit false

namespace CodeAudit

inductive Seconds where
  | whole (n : Int)
  | real (x : Binary64)
  deriving DecidableEq, Repr

namespace Seconds

def toJson : Seconds → Json
  | .whole n => .int n
  | .real x => .float x

def ofJson? : Json → Option Seconds
  | .int n => some (.whole n)
  | .float x => some (.real x)
  | _ => none

def text (s : Seconds) : String := s.toJson.shown

def isZero : Seconds → Bool
  | .whole n => n == 0
  | .real x => x.isZero

def isPositive : Seconds → Bool
  | .whole n => decide (0 < n)
  | .real x => x.isPositive

def isNegative : Seconds → Bool
  | .whole n => decide (n < 0)
  | .real x => x.isNegative

def isSpent (s : Seconds) : Bool := s.isZero || s.isNegative

end Seconds
end CodeAudit
