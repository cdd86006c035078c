import CodeAudit.Text.Table.Ignorable
import CodeAudit.Text.Table.Lower
import CodeAudit.Text.Table.Lowercase
import CodeAudit.Text.Table.Upper

/-!
Letter case. Lower-casing is that of a whole text: a capital sigma at the end of a word becomes its
final form, and the dotted capital I becomes two characters.
-/
set_option autoImplicit false

namespace CodeAudit.Text
open Table

def isUpper (c : Char) : Bool := member upperRuns c

def isLower (c : Char) : Bool := member lowercaseRuns c

def isTitle (c : Char) : Bool :=
  let n := c.toNat
  n == 453 || n == 456 || n == 459 || n == 498 || (8072 ≤ n && n ≤ 8079) || (8088 ≤ n && n ≤ 8095) ||
    (8104 ≤ n && n ≤ 8111) || n == 8124 || n == 8140 || n == 8188

def isCased (c : Char) : Bool := isUpper c || isLower c || isTitle c

def isIgnorable (c : Char) : Bool := member ignorableRuns c

/-- The nearest character that counts for case, in reading order, is a cased one. -/
def touchesCased (s : List Char) : Bool := ((s.dropWhile isIgnorable).head?.map isCased).getD false

def lowerChar (before : List Char) (c : Char) (after : List Char) : List Char :=
  if c = 'Σ' then
    [if touchesCased before && !touchesCased after then 'ς' else 'σ']
  else if c = 'İ' then ['i', '\u0307']
  else if c.toNat < 128 then [c.toLower]
  else [shifted lowerRuns c]

def lowerFrom (before : List Char) : List Char → List Char
  | [] => []
  | c :: r => lowerChar before c r ++ lowerFrom (c :: before) r

def lower (s : List Char) : List Char := lowerFrom [] s

def lowered (s : String) : String := String.ofList (lower s.toList)

/-- Some letter is a capital and none is small or a title ligature. -/
def isUpperText (s : List Char) : Bool :=
  s.any isUpper && !s.any fun c => isLower c || isTitle c

end CodeAudit.Text
