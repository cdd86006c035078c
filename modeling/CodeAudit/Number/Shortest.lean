import CodeAudit.Number.Binary64

/-!
The shortest decimal that reads back as a given double, and its text: positional from 10^-4 up to
10^16, with an exponent of at least two digits otherwise.
-/
set_option autoImplicit false

namespace CodeAudit.Binary64

/-- Four times the ends of the interval of reals that round to `u` units, in units. -/
def interval (u : Nat) : Nat × Nat :=
  let s := spacing u
  (4 * u - (if 1 < s ∧ u = Nat.pow 2 (Nat.log2 u) then s else 2 * s), 4 * u + 2 * s)

def leadingPower (u : Nat) : Int := (Nat.toDigits 10 (u * Nat.pow 10 345 / one)).length - 346

def fourUnits (digits : Nat) (power : Int) : Nat × Nat :=
  if 0 ≤ power then (4 * digits * Nat.pow 10 power.toNat * one, 1)
  else (4 * digits * one, Nat.pow 10 (-power).toNat)

def readsBack (u digits : Nat) (power : Int) : Bool :=
  let (low, high) := interval u
  let (n, d) := fourUnits digits power
  if (u / spacing u) % 2 = 0 then low * d ≤ n && n ≤ high * d else low * d < n && n < high * d

/-- Of the two neighbours of `u` on the grid of multiples of `10 ^ power`, those that read back; the
nearer one when both do, a tie going to the even one. -/
def onGrid? (u : Nat) (power : Int) : Option Nat :=
  let (n, d) := if 0 ≤ power then (u, one * Nat.pow 10 power.toNat) else (u * Nat.pow 10 (-power).toNat, one)
  let low := n / d
  match readsBack u low power, readsBack u (low + 1) power with
  | true, true => some (nearest n d)
  | true, false => some low
  | false, true => some (low + 1)
  | false, false => none

def shortest (u : Nat) : Nat × Int :=
  let p := leadingPower u
  let digits? (n : Nat) : Option (Nat × Int) := (onGrid? u (p - n)).map (·, p - n)
  ((List.range 17).findSome? digits?).getD (u, 0)

def placed (u : Nat) : List Char × Int :=
  let (d, k) := shortest u
  let ds := Nat.toDigits 10 d
  ((ds.reverse.dropWhile (· == '0')).reverse, ds.length + k)

def exponentText (e : Int) : List Char :=
  let ds := Nat.toDigits 10 e.natAbs
  'e' :: (if e < 0 then '-' else '+') :: (if ds.length < 2 then '0' :: ds else ds)

/-- How numbers are written: positionally while the point stands at most 16 places after and 3 before
the first digit. -/
def unsignedText (u : Nat) : List Char :=
  if u = 0 then ['0', '.', '0']
  else
    let (ds, point) := placed u
    let n : Int := ds.length
    if point ≤ -4 ∨ 16 < point then
      let mantissa := match ds with
        | d :: [] => [d]
        | d :: r => d :: '.' :: r
        | [] => []
      mantissa ++ exponentText (point - 1)
    else if point ≤ 0 then '0' :: '.' :: List.replicate (-point).toNat '0' ++ ds
    else if n ≤ point then ds ++ List.replicate (point - n).toNat '0' ++ ['.', '0']
    else ds.take point.toNat ++ '.' :: ds.drop point.toNat

def render : Binary64 → String
  | .nan => "nan"
  | .infinite neg => if neg then "-inf" else "inf"
  | .finite neg u => String.ofList (if neg then '-' :: unsignedText u else unsignedText u)

end CodeAudit.Binary64
