import CodeAudit.Review.Fence

/-!
The JSON object in an answer: in the first fenced block, or else in the whole answer, the text from
the first opening brace to the brace that closes it, or to the end if none does.
-/
set_option autoImplicit false

namespace CodeAudit.Architecture
open Fence (ticks)

def untilClosing? : List Char → Option (List Char)
  | [] => none
  | c :: r =>
    if c = '\n' && ticks.isPrefixOf r then some [] else (untilClosing? r).map (c :: ·)

/-- The body behind an opening and the blanks after it. It begins after the last of their line feeds
that leaves one to close the block. -/
def bodyAfter? (s : List Char) : Option (List Char) :=
  let (blanks, rest) := s.span Text.isBlank
  if blanks.contains '\n' then
    match untilClosing? (Text.lastLine blanks ++ rest) with
    | some body => some body
    | none =>
      if blanks.getLast? = some '\n' && 2 ≤ blanks.count '\n' && ticks.isPrefixOf rest then
        some (Text.lastLine blanks.dropLast)
      else none
  else none

def blockAt? (s : List Char) : Option (List Char) :=
  match Text.after? ticks s with
  | none => none
  | some r => bodyAfter? ((Text.after? "json".toList r).getD r)

def firstBlock? : List Char → Option (List Char)
  | [] => none
  | c :: r => (blockAt? (c :: r)).or (firstBlock? r)

def selected (answer : List Char) : List Char :=
  let s := Text.strip answer
  match firstBlock? s with
  | some body => Text.strip body
  | none => s

/-- How far into a text with braces and quoted strings one has read. -/
structure Reading where
  depth : Nat
  quoted : Bool
  escaped : Bool
  deriving DecidableEq, Repr

namespace Reading

def next (r : Reading) (c : Char) : Reading :=
  if r.escaped then { r with escaped := false }
  else if c = '\\' && r.quoted then { r with escaped := true }
  else if c = '"' then { r with quoted := !r.quoted }
  else if r.quoted then r
  else if c = '{' then { r with depth := r.depth + 1 }
  else if c = '}' then { r with depth := r.depth - 1 }
  else r

def closes (r : Reading) (c : Char) : Bool :=
  !r.escaped && !r.quoted && c = '}' && r.depth == 1

end Reading

def untilClosed (r : Reading) : List Char → List Char
  | [] => []
  | c :: s => c :: if r.closes c then [] else untilClosed (r.next c) s

/-- The object in an answer; without an opening brace, all that was searched. -/
def objectText (answer : List Char) : List Char :=
  let s := selected answer
  match s.dropWhile (· ≠ '{') with
  | [] => s
  | t => untilClosed ⟨0, false, false⟩ t

end CodeAudit.Architecture
