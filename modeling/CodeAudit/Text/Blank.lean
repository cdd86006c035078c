set_option autoImplicit false

namespace CodeAudit.Text

/-- Unicode white space, the four separators U+001C to U+001F counted in. -/
def isBlank (c : Char) : Bool :=
  let n := c.toNat
  (9 ≤ n && n ≤ 13) || (0x1c ≤ n && n ≤ 0x20) || n == 0x85 || n == 0xa0 || n == 0x1680 ||
    (0x2000 ≤ n && n ≤ 0x200a) || n == 0x2028 || n == 0x2029 || n == 0x202f || n == 0x205f ||
    n == 0x3000

/-- The blanks that may surround a number: of the ASCII ones only tab to carriage return and space. -/
def isNumberBlank (c : Char) : Bool := isBlank c && !(0x1c ≤ c.toNat && c.toNat ≤ 0x1f)

def dropTail (p : Char → Bool) (s : List Char) : List Char := (s.reverse.dropWhile p).reverse

def trimBy (p : Char → Bool) (s : List Char) : List Char := dropTail p (s.dropWhile p)

def strip (s : List Char) : List Char := trimBy isBlank s

def trimmed (s : String) : String := String.ofList (strip s.toList)

end CodeAudit.Text
