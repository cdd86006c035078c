import CodeAudit.Text.Blank
import CodeAudit.Text.Lines
import CodeAudit.Text.Search

/-!
Fenced blocks: three backticks, a tag, blanks with a line feed among them, a body, three backticks.
The body begins after the last line feed of those blanks and ends before the next three backticks; a
line feed right before them is not part of it.
-/
set_option autoImplicit false

namespace CodeAudit.Fence

def ticks : List Char := ['`', '`', '`']

def isTagChar (c : Char) : Bool := c.isAlphanum || c = '_' || c = '+' || c = '-'

def untilTicks? : List Char → Option (List Char × List Char)
  | [] => none
  | c :: r =>
    if ticks.isPrefixOf (c :: r) then some ([], (c :: r).drop 3)
    else (untilTicks? r).map fun (body, rest) => (c :: body, rest)

def afterBreak? (s : List Char) : Option (List Char) :=
  let (blanks, rest) := s.span Text.isBlank
  if blanks.contains '\n' then some (Text.lastLine blanks ++ rest) else none

def dropBreak (body : List Char) : List Char :=
  if body.getLast? = some '\n' then body.dropLast else body

def blockAt? (s : List Char) : Option (List Char × List Char) := do
  let r ← Text.after? ticks s
  let r ← afterBreak? (r.dropWhile isTagChar)
  let (body, rest) ← untilTicks? r
  return (dropBreak body, rest)

def bodiesFrom : Nat → List Char → List (List Char)
  | 0, _ => []
  | _, [] => []
  | fuel + 1, c :: r =>
    match blockAt? (c :: r) with
    | some (body, rest) => body :: bodiesFrom fuel rest
    | none => bodiesFrom fuel r

/-- The bodies of the blocks of a text, each block beginning behind the one before it. -/
def bodies (s : List Char) : List (List Char) := bodiesFrom s.length s

end CodeAudit.Fence
