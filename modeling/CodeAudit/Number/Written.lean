import CodeAudit.Number.Literal

set_option autoImplicit false

namespace CodeAudit.Number
open Text

/-- Some character of the text, and the next one, are underscores. -/
def hasDouble : List Char → Bool
  | '_' :: '_' :: _ => true
  | _ :: r => hasDouble r
  | [] => false

def ungrouped? (s : List Char) : Option (List Char) :=
  if s.head? = some '_' || s.getLast? = some '_' || hasDouble s then none
  else some (s.filter (· ≠ '_'))

def isLeading (c : Char) : Bool := c = '0' || c = '_'

def startsInteger (c : Char) : Bool := c = '-' || ('1' ≤ c && c ≤ '9')

/-- A text without a zero at its front and the zeros and underscores behind it; where nothing else
follows, or a decimal point, their last character stays. -/
def dropZeros? (s : List Char) : Option (List Char) :=
  match s.span isLeading with
  | ([], rest) => if (rest.head?.map startsInteger).getD false then some s else none
  | (c :: zeros, rest) =>
    let last := (c :: zeros).drop zeros.length
    if c = '_' then none
    else
      match rest with
      | [] => some last
      | d :: _ => if d = '.' then some (last ++ rest) else if startsInteger d then some rest else none

def dropFraction (s : List Char) : List Char :=
  match s.span (· ≠ '.') with
  | (whole, _ :: d :: r) => if (d :: r).all (· = '0') then whole else s
  | _ => s

/-- A text without its sign, and whether that was a minus. A plus may not stand before a minus. -/
def signOff? : List Char → Option (Bool × List Char)
  | '+' :: '-' :: _ => none
  | '+' :: r => some (false, r)
  | '-' :: r => some (true, r)
  | s => some (false, s)

def maxIntegerChars : Nat := 4300

def plainInteger (s : List Char) : Except Defect Int :=
  let (neg, r) := match s with
    | '-' :: r => (true, r)
    | r => (false, r)
  let (digits, rest) := r.span Char.isDigit
  if digits.isEmpty then .error .unreadableInteger
  else if maxIntegerChars < digits.length + (if neg then 1 else 0) then .error .longInteger
  else if rest.isEmpty then .ok (Binary64.signed neg (valueIn 10 digits))
  else .error .unreadableInteger

def cleaned? (s : List Char) : Option (List Char) := do
  let (neg, r) ← signOff? s
  let r := dropFraction (← dropZeros? r)
  let r := (ungrouped? r).getD r
  return if neg then '-' :: r else r

def writtenInteger (s : List Char) : Except Defect Int :=
  match cleaned? (trimBy isNumberBlank s) with
  | none => .error .unreadableInteger
  | some r => plainInteger r

/-- A real number in writing: blanks around it, or underscores in it, but not both. -/
def writtenReal? (s : List Char) : Option Binary64 :=
  (plainReal? (trimBy isNumberBlank s)).or ((ungrouped? s).bind plainReal?)

end CodeAudit.Number
