/-!
UTF-8 read one byte at a time. A malformed sequence counts once for each of its maximal prefixes
that could have begun a character; the reading is either strict (such a sequence refuses the whole
text) or forgiving (it becomes U+FFFD).
-/
set_option autoImplicit false

namespace CodeAudit.Text.Utf8

def encode (s : List Char) : List UInt8 := s.flatMap String.utf8EncodeChar

/-- A character begun but not finished: the bits so far, how many bytes are missing, and the range
in which the next one must lie. -/
structure Partial where
  bits : Nat
  missing : Nat
  low : Nat
  high : Nat
  deriving DecidableEq, Repr

/-- What a first byte gives: whole characters (`none` for a malformed one) and a character begun. -/
def first (b : Nat) : List (Option Char) × Option Partial :=
  if b < 0x80 then ([some (Char.ofNat b)], none)
  else if b < 0xc2 then ([none], none)
  else if b < 0xe0 then ([], some ⟨b - 0xc0, 1, 0x80, 0xbf⟩)
  else if b < 0xf0 then
    ([], some ⟨b - 0xe0, 2, if b = 0xe0 then 0xa0 else 0x80, if b = 0xed then 0x9f else 0xbf⟩)
  else if b < 0xf5 then
    ([], some ⟨b - 0xf0, 3, if b = 0xf0 then 0x90 else 0x80, if b = 0xf4 then 0x8f else 0xbf⟩)
  else ([none], none)

def next (p : Partial) (b : Nat) : List (Option Char) × Option Partial :=
  if p.low ≤ b ∧ b ≤ p.high then
    let bits := p.bits * 64 + (b - 0x80)
    if p.missing ≤ 1 then ([some (Char.ofNat bits)], none)
    else ([], some ⟨bits, p.missing - 1, 0x80, 0xbf⟩)
  else
    let (cs, q) := first b
    (none :: cs, q)

def readFrom : Option Partial → List UInt8 → List (Option Char)
  | none, [] => []
  | some _, [] => [none]
  | none, b :: r => let (cs, q) := first b.toNat; cs ++ readFrom q r
  | some p, b :: r => let (cs, q) := next p b.toNat; cs ++ readFrom q r

def read (bytes : List UInt8) : List (Option Char) := readFrom none bytes

def decode (bytes : List UInt8) : List Char := (read bytes).map fun c => c.getD '\uFFFD'

def decode? (bytes : List UInt8) : Option (List Char) := (read bytes).mapM id

end CodeAudit.Text.Utf8
