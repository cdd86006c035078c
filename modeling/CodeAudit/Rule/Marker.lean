import CodeAudit.Rule.Notice

set_option autoImplicit false

namespace CodeAudit.Rule

def markers : List (List Char) := ["TODO", "FIXME", "HACK", "XXX", "BUG"].map String.toList

/-- The capital that a letter counts as: besides the ASCII letters, the dotted capital I, the dotless
small i and the Kelvin sign count as I and K. -/
def markerLetter (c : Char) : Char :=
  if c = 'İ' ∨ c = 'ı' then 'I' else if c = '\u212a' then 'K' else c.toUpper

def shownLetter (c : Char) : Char := if c = 'ı' then 'I' else c.toUpper

def markerAt? (s : List Char) : Option (List Char) :=
  markers.findSome? fun m =>
    if (s.take m.length).map markerLetter == m && (s.drop m.length).head? == some ':' then
      some (s.take m.length)
    else none

def commentAt? : List Char → Option (List Char)
  | '/' :: '/' :: r => markerAt? (r.dropWhile Text.isBlank)
  | '/' :: '*' :: r => markerAt? (r.dropWhile Text.isBlank)
  | _ => none

def markerIn? : List Char → Option (List Char)
  | [] => none
  | c :: r => (commentAt? (c :: r)).or (markerIn? r)

def markerNotice (marker line : String) : Notice := {
  code := .warningComment
  title := s!"{marker} comment found"
  description := s!"Found {marker} marker: {line}"
  suggestion := s!"Address the {marker} or create a ticket to track it."
  metadata := [("marker", .text marker)] }

def markerFinding? (path : String) (index : Nat) (line : List Char) : Option Finding :=
  (markerIn? line).map fun m =>
    let shown := String.ofList (Text.strip line)
    (markerNotice (String.ofList (m.map shownLetter)) shown).toFinding path
      (.single (index + 1) (by omega)) (some shown)

def warningComments (path text : String) : List Finding :=
  (Text.lines text.toList).zipIdx.filterMap fun (line, i) => markerFinding? path i line

end CodeAudit.Rule
