import CodeAudit.Failure
import CodeAudit.Source.Path
import CodeAudit.Tree.Node

set_option autoImplicit false

namespace CodeAudit

inductive Grammar where
  | javascript
  | typescript
  | tsx
  deriving DecidableEq, Repr

namespace Grammar

def name : Grammar → String
  | .javascript => "javascript"
  | .typescript => "typescript"
  | .tsx => "tsx"

def all : List Grammar := [.javascript, .typescript, .tsx]

def ofName? (s : String) : Option Grammar := all.find? fun g => g.name == s

def ofExtension? : String → Option Grammar
  | ".js" | ".jsx" | ".mjs" | ".cjs" => some .javascript
  | ".ts" => some .typescript
  | ".tsx" => some .tsx
  | _ => none

def ofPath? (path : String) : Option Grammar := ofExtension? (Path.extension path)

end Grammar

inductive Parse where
  | tree (root : Node)
  | flawed
  deriving Repr

structure TreeBuilder where
  parser? : Grammar → Option (String → Except Failure Parse)

namespace TreeBuilder

def supports (path : String) : Bool := (Grammar.ofPath? path).isSome

def asked? (b : TreeBuilder) (path : String) : Option Grammar :=
  (Grammar.ofPath? path).filter fun g => (b.parser? g).isSome

/-- The tree of a text; none without a parser, and none if the tree has errors in it. -/
def parse (b : TreeBuilder) (text path : String) : Except Failure (Option Node) :=
  match (Grammar.ofPath? path).bind b.parser? with
  | none => .ok none
  | some parser =>
    match parser text with
    | .error e => .error e
    | .ok .flawed => .ok none
    | .ok (.tree root) => .ok (some root)

end TreeBuilder
end CodeAudit
