import CodeAudit.Tree.Node

/-!
The places of a tree in pre-order, by way of named children only: all of them, or those outside
nested functions. They are taken from a pile of places still to come, until nothing is left on it.
-/
set_option autoImplicit false

namespace CodeAudit

namespace Node

mutual

def size : Node → Nat
  | ⟨_, _, _, _, _, children⟩ => sizeEach children + 1

def sizeEach : List Node → Nat
  | [] => 0
  | c :: r => size c + sizeEach r

end

theorem sizeEach_children (n : Node) : sizeEach n.children + 1 = n.size := by
  cases n
  rfl

theorem sizeEach_append (cs ds : List Node) : sizeEach (cs ++ ds) = sizeEach cs + sizeEach ds := by
  induction cs with
  | nil => exact (Nat.zero_add _).symm
  | cons c r ih => rw [List.cons_append, sizeEach, sizeEach, ih, Nat.add_assoc]

end Node

namespace Place

def functionKinds : List String := [
  "function_declaration", "generator_function_declaration", "function_expression", "function",
  "generator_function", "arrow_function", "method_definition"]

def loopKinds : List String := ["for_statement", "for_in_statement", "while_statement", "do_statement"]

def isFunction (p : Place) : Bool := functionKinds.contains p.kind

def isLoop (p : Place) : Bool := loopKinds.contains p.kind

def weight (pile : List Place) : Nat := Node.sizeEach (pile.map node)

def push (pile places : List Place) : List Place := places.foldl (fun pile x => x :: pile) pile

/-- What comes next below a place: its named children, if it is opened. -/
def below (opens : Place → Bool) (x : Place) : List Place := if opens x then x.namedChildren else []

theorem push_reverse (pile places : List Place) : push pile places.reverse = places ++ pile := by
  simp [push]

theorem weight_filter_le (q : Place → Bool) (pile : List Place) : weight (pile.filter q) ≤ weight pile := by
  induction pile with
  | nil => exact Nat.le_refl _
  | cons x pile ih =>
    simp only [weight, List.filter_cons, List.map_cons, Node.sizeEach] at ih ⊢
    split
    · exact Nat.add_le_add_left ih _
    · exact Nat.le_trans ih (Nat.le_add_left _ _)

theorem weight_push_below_lt (opens : Place → Bool) (x : Place) (pile : List Place) :
    weight (push pile (below opens x).reverse) < weight (x :: pile) := by
  have hbelow : weight (below opens x) ≤ weight x.children := by
    rw [below]
    split
    · exact weight_filter_le _ x.children
    · exact Nat.zero_le _
  have hchildren : weight x.children + 1 = x.node.size := by
    rw [weight, children_node, Node.sizeEach_children]
  rw [push_reverse, weight, List.map_append, Node.sizeEach_append, weight, List.map_cons, Node.sizeEach]
  simp only [weight] at hbelow hchildren
  omega

/-- The places that are taken from a pile: each time the one on top, and what comes next below it is
put in its stead, the first of it on top. -/
-- Semireducible, so that it evaluates in a closed tree although the recursion is on the weight.
@[semireducible] def drain (opens : Place → Bool) : List Place → List Place
  | [] => []
  | x :: pile => x :: drain opens (push pile (below opens x).reverse)
termination_by pile => weight pile
decreasing_by exact weight_push_below_lt opens x pile

def walk (p : Place) : List Place := drain (fun _ => true) [p]

def scope (p : Place) : List Place := drain (fun x => !x.isFunction) (push [] p.namedChildren.reverse)

end Place
end CodeAudit
