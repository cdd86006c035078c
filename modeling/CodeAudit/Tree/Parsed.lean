import CodeAudit.Text.Blank
import CodeAudit.Text.Lines
import CodeAudit.Text.Utf8
import CodeAudit.Tree.Node

set_option autoImplicit false

namespace CodeAudit

structure Parsed where
  path : String
  text : String
  root : Node
  bytes : List UInt8
  bytes_eq : bytes = Text.Utf8.encode text.toList

namespace Parsed

def of (path text : String) (root : Node) : Parsed :=
  ⟨path, text, root, Text.Utf8.encode text.toList, rfl⟩

def top (p : Parsed) : Place := .top p.root

/-- The text between two bytes; bytes that are no character become U+FFFD. -/
def between (p : Parsed) (start stop : Nat) : List Char :=
  Text.Utf8.decode ((p.bytes.take stop).drop start)

def textOf (p : Parsed) (x : Place) : String := String.ofList (p.between x.node.start x.node.stop)

def textOf? (p : Parsed) (x : Option Place) : String := (x.map p.textOf).getD ""

def row (p : Parsed) (offset : Nat) : Nat := (p.bytes.take offset).count 10

def column (p : Parsed) (offset : Nat) : Nat :=
  let before := (p.bytes.take offset).reverse
  (before.takeWhile (· ≠ 10)).length + (offset - before.length)

def startRow (p : Parsed) (x : Place) : Nat := p.row x.node.start

def stopRow (p : Parsed) (x : Place) : Nat := p.row x.node.stop

def lineOf (p : Parsed) (x : Place) : String :=
  match (Text.lines p.text.toList)[p.startRow x]? with
  | some l => String.ofList (Text.strip l)
  | none => ""

end Parsed
end CodeAudit
