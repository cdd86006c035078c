import CodeAudit.Json.Value

set_option autoImplicit false

namespace CodeAudit.Json

/-- The blanks of a written form: after a comma, after a colon, and, if every item has a line of its
own, by how much each level is indented. -/
structure Layout where
  comma : List Char
  colon : List Char
  indent : Option Nat
  deriving DecidableEq, Repr

namespace Layout

def plain : Layout := ⟨[' '], [' '], none⟩

def dense : Layout := ⟨[], [], none⟩

def indented (width : Nat) : Layout := ⟨[], [' '], some width⟩

def lineBreak (l : Layout) (depth : Nat) : List Char :=
  match l.indent with
  | none => []
  | some width => '\n' :: List.replicate (width * depth) ' '

end Layout

def writeUnit (u : Nat) : List Char := '\\' :: 'u' :: Text.Quoted.hex 4 u

def writeChar (c : Char) : List Char :=
  if c = '"' ∨ c = '\\' then ['\\', c]
  else if c = '\n' then ['\\', 'n']
  else if c = '\r' then ['\\', 'r']
  else if c = '\t' then ['\\', 't']
  else if c = '\x08' then ['\\', 'b']
  else if c = '\x0c' then ['\\', 'f']
  else if 0x20 ≤ c.toNat ∧ c.toNat ≤ 0x7e then [c]
  else if c.toNat < 0x10000 then writeUnit c.toNat
  else
    let n := c.toNat - 0x10000
    writeUnit (0xd800 + n / 1024) ++ writeUnit (0xdc00 + n % 1024)

def writeLetter : Letter → List Char
  | .char c => writeChar c
  | .half u => writeUnit u

def writeString : LooseText → List Char
  | .whole s => '"' :: s.toList.flatMap writeChar ++ ['"']
  | .broken ls => '"' :: ls.flatMap writeLetter ++ ['"']

def writeFloat : Binary64 → List Char
  | .nan => "NaN".toList
  | .infinite neg => (if neg then "-Infinity" else "Infinity").toList
  | x => x.render.toList

mutual

def write (l : Layout) (depth : Nat) : Json → List Char
  | .null => "null".toList
  | .bool b => (if b then "true" else "false").toList
  | .int i => (toString i).toList
  | .float x => writeFloat x
  | .string t => writeString t
  | .array [] => ['[', ']']
  | .array (x :: xs) =>
    '[' :: l.lineBreak (depth + 1) ++ write l (depth + 1) x ++ writeItems l depth xs
  | .object [] => ['{', '}']
  | .object ((n, v) :: fs) =>
    '{' :: l.lineBreak (depth + 1) ++ writeString n ++ ':' :: l.colon ++ write l (depth + 1) v ++
      writeFields l depth fs

def writeItems (l : Layout) (depth : Nat) : List Json → List Char
  | [] => l.lineBreak depth ++ [']']
  | x :: xs =>
    ',' :: l.comma ++ l.lineBreak (depth + 1) ++ write l (depth + 1) x ++ writeItems l depth xs

def writeFields (l : Layout) (depth : Nat) : List (LooseText × Json) → List Char
  | [] => l.lineBreak depth ++ ['}']
  | (n, v) :: fs =>
    ',' :: l.comma ++ l.lineBreak (depth + 1) ++ writeString n ++ ':' :: l.colon ++
      write l (depth + 1) v ++ writeFields l depth fs

end

def render (l : Layout) (v : Json) : List Char := v.write l 0

end CodeAudit.Json
