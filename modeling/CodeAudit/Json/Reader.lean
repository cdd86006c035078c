import CodeAudit.Json.Value
import CodeAudit.Text.Digit

/-!
JSON values read from the front of a text. The words NaN, Infinity and -Infinity are numbers, control
characters must be escaped inside strings, and of two members with one name the later value counts. An
integer of more digits than `maxDigits`, and lists and objects nested more deeply than a limit, are
refused in a way of their own.
-/
set_option autoImplicit false

namespace CodeAudit.Json

/-- What a text has too much of to be read. -/
inductive Excess where
  | digits
  | nesting
  deriving DecidableEq, Repr

inductive Refusal where
  | malformed
  | excess (e : Excess)
  deriving DecidableEq, Repr

def maxDigits : Nat := 4300

namespace Reader

def isSpace (c : Char) : Bool := c = ' ' || c = '\t' || c = '\n' || c = '\r'

def skip (s : List Char) : List Char := s.dropWhile isSpace

def hexValue? (c : Char) : Option Nat :=
  if c.isDigit then some (c.toNat - 48)
  else if 'a' ≤ c ∧ c ≤ 'f' then some (c.toNat - 87)
  else if 'A' ≤ c ∧ c ≤ 'F' then some (c.toNat - 55)
  else none

def unit? : List Char → Option (Nat × List Char)
  | a :: b :: c :: d :: r => do
    let a ← hexValue? a
    let b ← hexValue? b
    let c ← hexValue? c
    let d ← hexValue? d
    return (((a * 16 + b) * 16 + c) * 16 + d, r)
  | _ => none

def isHigh (u : Nat) : Bool := 0xd800 ≤ u && u ≤ 0xdbff

def isLow (u : Nat) : Bool := 0xdc00 ≤ u && u ≤ 0xdfff

/-- The letter after the backslash and the u: one unit, or a high and a low one together. -/
def escaped? (s : List Char) : Option (Letter × List Char) := do
  let (u, r) ← unit? s
  if isHigh u then
    match r with
    | '\\' :: 'u' :: r' =>
      let (v, r'') ← unit? r'
      if isLow v then return (.char (Char.ofNat ((u - 0xd800) * 1024 + (v - 0xdc00) + 0x10000)), r'')
      else return (.half u, r)
    | _ => return (.half u, r)
  else if isLow u then return (.half u, r)
  else return (.char (Char.ofNat u), r)

def simpleEscape? : Char → Option Char
  | '"' => some '"'
  | '\\' => some '\\'
  | '/' => some '/'
  | 'b' => some '\x08'
  | 'f' => some '\x0c'
  | 'n' => some '\n'
  | 'r' => some '\r'
  | 't' => some '\t'
  | _ => none

/-- One piece of a string literal: `none` at the closing quote, else a letter. -/
def piece? : List Char → Option (Option Letter × List Char)
  | [] => none
  | '"' :: r => some (none, r)
  | '\\' :: 'u' :: r => (escaped? r).map fun (l, r) => (some l, r)
  | '\\' :: c :: r => (simpleEscape? c).map fun d => (some (.char d), r)
  | '\\' :: [] => none
  | c :: r => if c.toNat < 0x20 then none else some (some (.char c), r)

def string? : Nat → List Char → Option (List Letter × List Char)
  | 0, _ => none
  | fuel + 1, s =>
    match piece? s with
    | none => none
    | some (none, r) => some ([], r)
    | some (some l, r) => (string? fuel r).map fun (ls, r) => (l :: ls, r)

def readString (s : List Char) : Except Refusal (LooseText × List Char) :=
  match string? (s.length + 1) s with
  | some (ls, r) => .ok (.ofLetters ls, r)
  | none => .error .malformed

def digits (s : List Char) : List Char × List Char := s.span Char.isDigit

def whole? : List Char → Option (List Char × List Char)
  | '0' :: r => some (['0'], r)
  | c :: r => if c.isDigit then some (digits (c :: r)) else none
  | [] => none

/-- The digits after a decimal point; without a digit the point is not part of the number. -/
def fraction (s : List Char) : List Char × List Char :=
  match s with
  | '.' :: r =>
    match digits r with
    | ([], _) => ([], s)
    | d => d
  | _ => ([], s)

def exponentDigits? (neg : Bool) (s : List Char) : Option (Int × List Char) :=
  match digits s with
  | ([], _) => none
  | (ds, r) => some (Binary64.signed neg (Text.valueIn 10 ds), r)

def exponent? : List Char → Option (Int × List Char)
  | c :: r =>
    if c = 'e' ∨ c = 'E' then
      match r with
      | '-' :: r' => exponentDigits? true r'
      | '+' :: r' => exponentDigits? false r'
      | r' => exponentDigits? false r'
    else none
  | [] => none

def readNumber (neg : Bool) (s : List Char) : Except Refusal (Json × List Char) :=
  match whole? s with
  | none => .error .malformed
  | some (ds, r) =>
    let (fs, r₁) := fraction r
    let (e, r₂) := (exponent? r₁).getD (0, r₁)
    if fs.isEmpty && (exponent? r₁).isNone then
      if ds.length ≤ maxDigits then .ok (.int (Binary64.signed neg (Text.valueIn 10 ds)), r)
      else .error (.excess .digits)
    else .ok (.float (Binary64.ofDecimal neg (Text.valueIn 10 (ds ++ fs)) (e - fs.length)), r₂)

def words : List (List Char × Json) := [
  ("null".toList, .null), ("true".toList, .bool true), ("false".toList, .bool false),
  ("NaN".toList, .float .nan), ("Infinity".toList, .float (.infinite false)),
  ("-Infinity".toList, .float (.infinite true))]

def word? (s : List Char) : Option (Json × List Char) :=
  words.findSome? fun (w, v) => if w.isPrefixOf s then some (v, s.drop w.length) else none

def readPlain (s : List Char) : Except Refusal (Json × List Char) :=
  match word? s with
  | some x => .ok x
  | none =>
    match s with
    | '-' :: r => readNumber true r
    | _ => readNumber false s

mutual

/-- A value, with room for so many lists and objects inside each other. A bracket that finds no room left
is refused before anything behind it is looked at. -/
def readValue : Nat → Nat → List Char → Except Refusal (Json × List Char)
  | 0, _, _ => .error .malformed
  | fuel + 1, room, s =>
    match s with
    | '"' :: r => (readString r).map fun (t, r) => (.string t, r)
    | '[' :: r =>
      match room with
      | 0 => .error (.excess .nesting)
      | room + 1 =>
        match skip r with
        | ']' :: r' => .ok (.array [], r')
        | r' => (readItems fuel room r').map fun (xs, r) => (.array xs, r)
    | '{' :: r =>
      match room with
      | 0 => .error (.excess .nesting)
      | room + 1 =>
        match skip r with
        | '}' :: r' => .ok (.object [], r')
        | r' => (readFields fuel room [] r').map fun (fs, r) => (.object fs, r)
    | _ => readPlain s

def readItems : Nat → Nat → List Char → Except Refusal (List Json × List Char)
  | 0, _, _ => .error .malformed
  | fuel + 1, room, s => do
    let (v, r) ← readValue fuel room s
    match skip r with
    | ']' :: r' => return ([v], r')
    | ',' :: r' =>
      let (vs, r) ← readItems fuel room (skip r')
      return (v :: vs, r)
    | _ => throw .malformed

/-- The members of an object from the next one on, and the closing brace; `seen` came before. -/
def readFields : Nat → Nat → Fields → List Char → Except Refusal (Fields × List Char)
  | 0, _, _, _ => .error .malformed
  | fuel + 1, room, seen, s =>
    match s with
    | '"' :: r => do
      let (name, r) ← readString r
      match skip r with
      | ':' :: r =>
        let (v, r) ← readValue fuel room (skip r)
        let seen := seen.put name v
        match skip r with
        | '}' :: r => return (seen, r)
        | ',' :: r => readFields fuel room seen (skip r)
        | _ => throw .malformed
      | _ => throw .malformed
    | _ => throw .malformed

end

end Reader

/-- The value that begins right at the front of the text, of at most `limit` lists and objects inside each
other. -/
def readAt (limit : Nat) (s : List Char) : Except Refusal (Json × List Char) :=
  Reader.readValue (2 * s.length + 2) limit s

/-- The value that a whole text is, blanks around it aside. -/
def ofText (limit : Nat) (s : List Char) : Except Refusal Json := do
  let (v, r) ← readAt limit (Reader.skip s)
  if (Reader.skip r).isEmpty then return v else throw .malformed

end CodeAudit.Json
