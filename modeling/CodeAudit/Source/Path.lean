import CodeAudit.Text.Case

set_option autoImplicit false

namespace CodeAudit.Path

/-- The names along a path; empty ones and single points do not count. -/
def parts (path : List Char) : List (List Char) :=
  (path.splitOn '/').filter fun p => !p.isEmpty && p != ['.']

def nameOf (path : List Char) : List Char := ((parts path).getLast?).getD []

/-- A name from its last point on; a point at either end of the name does not count. -/
def suffixOfName (name : List Char) : List Char :=
  let tail := (name.reverse.takeWhile (· ≠ '.')).reverse
  if tail.isEmpty || name.length ≤ tail.length + 1 then [] else '.' :: tail

def suffix (path : String) : String := String.ofList (suffixOfName (nameOf path.toList))

def extension (path : String) : String := Text.lowered (suffix path)

end CodeAudit.Path
