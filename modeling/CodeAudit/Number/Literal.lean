import CodeAudit.Failure
import CodeAudit.Number.Shortest
import CodeAudit.Text.Blank
import CodeAudit.Text.Case
import CodeAudit.Text.Digit

set_option autoImplicit false

namespace CodeAudit.Number
open Text

def wholeDigits? (base : Nat) (s : List Char) : Option Nat :=
  if s.isEmpty then none
  else if s.all fun c => (valueIn.digitIn? base c).isSome then some (valueIn base s)
  else none

def splitSign : List Char → Bool × List Char
  | '-' :: r => (true, r)
  | '+' :: r => (false, r)
  | r => (false, r)

/-- The exponent behind a mantissa: nothing, or the letter and an integer. -/
def exponent? : List Char → Option Int
  | [] => some 0
  | c :: r =>
    if c = 'e' ∨ c = 'E' then
      let (neg, ds) := splitSign r
      (wholeDigits? 10 ds).map (Binary64.signed neg)
    else none

def decimal? (neg : Bool) (s : List Char) : Option Binary64 :=
  let (whole, r) := s.span Char.isDigit
  let (frac, r) := match r with
    | '.' :: r => r.span Char.isDigit
    | r => ([], r)
  match exponent? r with
  | none => none
  | some e =>
    if (whole ++ frac).isEmpty then none
    else some (Binary64.ofDecimal neg (valueIn 10 (whole ++ frac)) (e - frac.length))

def plainReal? (s : List Char) : Option Binary64 :=
  let (neg, r) := splitSign s
  let word := r.map Char.toLower
  if word = "inf".toList ∨ word = "infinity".toList then some (.infinite neg)
  else if word = "nan".toList then some .nan
  else decimal? neg r

def real? (s : List Char) : Option Binary64 := plainReal? (trimBy isNumberBlank (s.map plainDigit))

def toDouble (n : Nat) : Except Failure Binary64 :=
  match Binary64.ofNat n with
  | .infinite _ => .error .integerTooLarge
  | x => .ok x

def announcedBase? : List Char → Option (Nat × List Char)
  | '0' :: 'x' :: r => some (16, r)
  | '0' :: 'o' :: r => some (8, r)
  | '0' :: 'b' :: r => some (2, r)
  | _ => none

/-- Digits of any script that follow a zero: an old octal number. -/
def isOldOctal (s : List Char) : Bool :=
  match s with
  | '0' :: _ :: _ => s.all isDecimal
  | _ => false

/-- A literal in lower case without the marks that do not count: underscores and the big-integer
suffix. -/
def bare (s : List Char) : List Char :=
  lower (dropTail (fun c => c = 'n' || c = 'N') (s.filter (· ≠ '_')))

/-- The number that a bare literal spells in whole digits of a base other than ten, and `none` inside if
the digits are wrong. -/
def based? (s : List Char) : Option (Option Nat) :=
  match announcedBase? s with
  | some (base, r) => some (wholeDigits? base (dropTail isNumberBlank (r.map plainDigit)))
  | none => if isOldOctal s then some (wholeDigits? 8 (s.map plainDigit)) else none

def literal? (s : List Char) : Except Failure (Option Binary64) :=
  let s := bare s
  match based? s with
  | some (some n) => (toDouble n).map some
  | some none => .ok none
  | none => .ok (real? s)

def shown (x : Binary64) : String :=
  match x.truncate? with
  | some i => if x.isWhole then toString i else x.render
  | none => x.render

end CodeAudit.Number
