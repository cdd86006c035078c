/-!
Syntax trees. A node knows its kind, the bytes it covers, the field under which its parent holds it,
and whether it is a named construct or a bare token. A place is a node together with the way up to
the root, so that two nodes that look alike stay apart.
-/
set_option autoImplicit false

namespace CodeAudit

structure Node where
  kind : String
  named : Bool
  field : Option String
  start : Nat
  stop : Nat
  children : List Node
  deriving Repr

/-- A node in its tree: `trail` holds its parents, the nearest first, each with the index of the child
through which the way leads down. -/
structure Place where
  node : Node
  trail : List (Nat × Node)
  deriving Repr

namespace Place

def top (root : Node) : Place := ⟨root, []⟩

def kind (p : Place) : String := p.node.kind

/-- The child indices that lead to the place, the last one first. They identify it in its tree. -/
def route (p : Place) : List Nat := p.trail.map (·.1)

def isAt (p q : Place) : Bool := p.route == q.route

def parent? (p : Place) : Option Place :=
  match p.trail with
  | [] => none
  | (_, n) :: t => some ⟨n, t⟩

def climb : List (Nat × Node) → List Place
  | [] => []
  | (_, n) :: t => ⟨n, t⟩ :: climb t

def ancestors (p : Place) : List Place := climb p.trail

def children (p : Place) : List Place :=
  p.node.children.zipIdx.map fun (n, i) => ⟨n, (i, p.node) :: p.trail⟩

theorem children_node (p : Place) : p.children.map node = p.node.children := by
  simp [children, Function.comp_def]

def namedChildren (p : Place) : List Place := p.children.filter (·.node.named)

def child? (p : Place) (field : String) : Option Place :=
  p.children.find? fun c => c.node.field == some field

def descend? (p : Place) : List Nat → Option Place
  | [] => some p
  | i :: r =>
    match p.children[i]? with
    | some c => c.descend? r
    | none => none

end Place
end CodeAudit
