import CodeAudit.Number.Shortest
import CodeAudit.Text.Loose

/-!
JSON values as a reply holds them: integers and doubles apart, the members of an object in the order
in which their names first appeared.
-/
set_option autoImplicit false

namespace CodeAudit

inductive Json where
  | null
  | bool (b : Bool)
  | int (i : Int)
  | float (x : Binary64)
  | string (t : LooseText)
  | array (items : List Json)
  | object (fields : List (LooseText × Json))
  deriving Repr, BEq

abbrev Fields := List (LooseText × Json)

namespace Fields

def get? (name : String) : Fields → Option Json
  | [] => none
  | (n, v) :: r => if n = .whole name then some v else get? name r

/-- A name that is there already keeps its place. -/
def put (name : LooseText) (value : Json) : Fields → Fields
  | [] => [(name, value)]
  | (n, v) :: r => if n = name then (n, value) :: r else (n, v) :: put name value r

end Fields

namespace Json

def ofNat (n : Nat) : Json := .int n

def ofOption {α : Type} (f : α → Json) : Option α → Json
  | some a => f a
  | none => .null

def text (s : String) : Json := .string (.whole s)

def texts (ss : List String) : Json := .array (ss.map text)

/-- Null, false, zero and whatever is empty count as missing; everything else is given. -/
def isGiven : Json → Bool
  | .null => false
  | .bool b => b
  | .int i => i != 0
  | .float x => !x.isZero
  | .string t => t != .whole ""
  | .array xs => !xs.isEmpty
  | .object fs => !fs.isEmpty

def kindName : Json → String
  | .null => "NoneType"
  | .bool _ => "bool"
  | .int _ => "int"
  | .float _ => "float"
  | .string _ => "str"
  | .array _ => "list"
  | .object _ => "dict"

mutual

def spelled : Json → String
  | .null => "None"
  | .bool true => "True"
  | .bool false => "False"
  | .int i => toString i
  | .float x => x.render
  | .string t => String.ofList t.quoted
  | .array xs => "[" ++ ", ".intercalate (spelledItems xs) ++ "]"
  | .object fs => "\x7b" ++ ", ".intercalate (spelledFields fs) ++ "\x7d"

def spelledItems : List Json → List String
  | [] => []
  | x :: r => spelled x :: spelledItems r

def spelledFields : List (LooseText × Json) → List String
  | [] => []
  | (n, v) :: r => (String.ofList n.quoted ++ ": " ++ spelled v) :: spelledFields r

end

/-- The text that takes the place of a value where only text can stand; a text is its own, with U+FFFD
in place of each half. -/
def shown : Json → String
  | .string t => t.text
  | v => spelled v

end Json
end CodeAudit
