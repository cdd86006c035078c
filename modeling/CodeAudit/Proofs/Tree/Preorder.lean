import CodeAudit.Tree.Walk
import Mathlib.Data.List.Basic
import Mathlib.Logic.Relation

/-!
Pre-orders by recursion. What is taken from a pile of places is, from the top of the pile down, the pre-order below
each of them, so that the walk is what recursion on the tree gives; and it meets the places to which named children
lead.
-/
set_option autoImplicit false

namespace CodeAudit.Place

mutual

def walkFrom (trail : List (Nat × Node)) : Node → List Place
  | ⟨kind, named, field, start, stop, children⟩ =>
    let n : Node := ⟨kind, named, field, start, stop, children⟩
    ⟨n, trail⟩ :: walkEach n trail 0 children

def walkEach (parent : Node) (trail : List (Nat × Node)) (i : Nat) : List Node → List Place
  | [] => []
  | c :: r =>
    (if c.named then walkFrom ((i, parent) :: trail) c else []) ++ walkEach parent trail (i + 1) r

end

/-- Each place first, then what comes next below it, one after another in the same order. -/
def Preordered (opens : Place → Bool) (order : Place → List Place) : Prop :=
  ∀ x, order x = x :: (below opens x).flatMap order

variable {opens : Place → Bool} {order : Place → List Place} {pile : List Place} {x y c : Place}

theorem drain_cons (opens : Place → Bool) (x : Place) (pile : List Place) :
    drain opens (x :: pile) = x :: drain opens (below opens x ++ pile) := by
  rw [drain, push_reverse]

theorem scope_eq_drain (x : Place) : x.scope = drain (fun z => !z.isFunction) x.namedChildren := by
  rw [scope, push_reverse, List.append_nil]

theorem Preordered.flatMap_cons (h : Preordered opens order) (x : Place) (pile : List Place) :
    (x :: pile).flatMap order = x :: (below opens x ++ pile).flatMap order := by
  rw [List.flatMap_cons, h x, List.flatMap_append, List.cons_append]

/-- The invariant of the pile: still to come is the pre-order of what lies on it. -/
theorem Preordered.drain_eq (h : Preordered opens order) (pile : List Place) :
    drain opens pile = pile.flatMap order := by
  induction pile using drain.induct opens with
  | case1 => rw [drain, List.flatMap_nil]
  | case2 x pile ih => rw [drain, ih, push_reverse, h.flatMap_cons]

theorem walkEach_eq (parent : Node) (trail : List (Nat × Node)) (i : Nat) (cs : List Node) :
    walkEach parent trail i cs = (((cs.zipIdx i).map fun s => Place.mk s.1 ((s.2, parent) :: trail)).filter
      (·.node.named)).flatMap fun c => walkFrom c.trail c.node := by
  induction cs generalizing i with
  | nil => rfl
  | cons c r ih =>
    rw [walkEach, ih, List.zipIdx_cons, List.map_cons, List.filter_cons]
    split <;> rfl

theorem preordered_walkFrom : Preordered (fun _ => true) fun x => walkFrom x.trail x.node := by
  rintro ⟨⟨kind, named, field, start, stop, children⟩, trail⟩
  dsimp only
  rw [walkFrom]
  congr 1
  exact walkEach_eq _ trail 0 children

theorem walk_eq (x : Place) : x.walk = walkFrom x.trail x.node := by
  rw [walk, preordered_walkFrom.drain_eq, List.flatMap_singleton]

theorem drain_append (opens : Place → Bool) (places pile : List Place) :
    drain opens (places ++ pile) = drain opens places ++ drain opens pile := by
  induction places using drain.induct opens with
  | case1 => rw [drain, List.nil_append, List.nil_append]
  | case2 x places ih =>
    rw [push_reverse] at ih
    rw [List.cons_append, drain_cons, ← List.append_assoc, ih, drain_cons, List.cons_append]

theorem drain_eq_flatMap (opens : Place → Bool) (pile : List Place) :
    drain opens pile = pile.flatMap fun x => drain opens [x] := by
  induction pile with
  | nil => rw [drain, List.flatMap_nil]
  | cons x pile ih => rw [← List.singleton_append, drain_append, ih, List.flatMap_append, List.flatMap_singleton]

theorem drain_singleton (opens : Place → Bool) (x : Place) :
    drain opens [x] = x :: (below opens x).flatMap fun c => drain opens [c] := by
  rw [drain_cons, List.append_nil, drain_eq_flatMap]

theorem walk_cons (x : Place) : x.walk = x :: x.namedChildren.flatMap walk := drain_singleton (fun _ => true) x

theorem mem_below : c ∈ below opens x ↔ opens x ∧ c ∈ x.namedChildren := by
  rw [below]
  cases opens x <;> simp

theorem mem_children_of_named (h : c ∈ x.namedChildren) : c ∈ x.children := (List.mem_filter.1 h).1

theorem mem_children_of_below (h : c ∈ below opens x) : c ∈ x.children := mem_children_of_named (mem_below.1 h).2

abbrev Reaches (opens : Place → Bool) : Place → Place → Prop := Relation.ReflTransGen fun z c => c ∈ below opens z

theorem reaches_iff : Reaches opens x y ↔ y = x ∨ ∃ c ∈ below opens x, Reaches opens c y := by
  rw [Reaches, Relation.ReflTransGen.cases_head_iff, eq_comm]

theorem mem_drain : y ∈ drain opens pile ↔ ∃ x ∈ pile, Reaches opens x y := by
  induction pile using drain.induct opens with
  | case1 => simp [drain]
  | case2 x pile ih =>
    rw [push_reverse] at ih
    rw [drain_cons, List.mem_cons, ih, List.exists_mem_cons_iff, reaches_iff (x := x), or_assoc]
    simp only [List.mem_append, or_and_right, exists_or]

/-- The walk meets the places to which named children lead. -/
theorem mem_walk : y ∈ x.walk ↔ Relation.ReflTransGen (fun z c => c ∈ z.namedChildren) x y := by
  rw [walk, mem_drain, List.exists_mem_cons_iff]
  simp only [List.not_mem_nil, false_and, exists_false, or_false]
  rfl

theorem mem_walk_self (x : Place) : x ∈ x.walk := mem_walk.2 .refl

theorem mem_scope : y ∈ x.scope ↔ ∃ c ∈ x.namedChildren, Reaches (fun z => !z.isFunction) c y := by
  rw [scope_eq_drain, mem_drain]

theorem scope_subset_walk (x : Place) : x.scope ⊆ x.walk := by
  intro y hy
  obtain ⟨c, hc, hreaches⟩ := mem_scope.1 hy
  have hway : Relation.ReflTransGen (fun z d => d ∈ z.namedChildren) c y :=
    Relation.ReflTransGen.mono (fun _ _ h => (mem_below.1 h).2) c y hreaches
  exact mem_walk.2 (.head hc hway)

end CodeAudit.Place
