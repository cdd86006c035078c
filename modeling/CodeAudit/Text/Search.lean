set_option autoImplicit false

namespace CodeAudit.Text

def occursIn (pat : List Char) : List Char → Bool
  | [] => pat.isEmpty
  | c :: r => pat.isPrefixOf (c :: r) || occursIn pat r

def contains (s pat : String) : Bool := occursIn pat.toList s.toList

def substitute (old new : Char) (s : List Char) : List Char := s.map fun c => if c = old then new else c

def after? (pat s : List Char) : Option (List Char) :=
  if pat.isPrefixOf s then some (s.drop pat.length) else none

end CodeAudit.Text
