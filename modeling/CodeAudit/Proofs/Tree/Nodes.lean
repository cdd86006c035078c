import CodeAudit.Proofs.Tree.Preorder
import CodeAudit.Tree.Query
import Mathlib.Data.List.Basic

set_option autoImplicit false

namespace CodeAudit

namespace Node

mutual

def all (q : Node → Bool) : Node → Bool
  | ⟨kind, named, field, start, stop, children⟩ => q ⟨kind, named, field, start, stop, children⟩ && allEach q children

def allEach (q : Node → Bool) : List Node → Bool
  | [] => true
  | c :: r => all q c && allEach q r

end

variable {q : Node → Bool} {n c : Node}

theorem all_self (h : n.all q) : q n := by
  cases n
  rw [all, Bool.and_eq_true] at h
  exact h.1

theorem all_of_mem_each {cs : List Node} (h : allEach q cs) (hc : c ∈ cs) : c.all q := by
  induction cs with
  | nil => cases hc
  | cons d r ih =>
    rw [allEach, Bool.and_eq_true] at h
    cases hc with
    | head => exact h.1
    | tail _ hc => exact ih h.2 hc

theorem all_child (h : n.all q) (hc : c ∈ n.children) : c.all q := by
  cases n
  rw [all, Bool.and_eq_true] at h
  exact all_of_mem_each h.2 hc

end Node

namespace Place
variable {q : Node → Bool} {x y c : Place}

theorem node_mem_children (h : c ∈ x.children) : c.node ∈ x.node.children :=
  children_node x ▸ List.mem_map_of_mem h

theorem child?_node (x : Place) (field : String) :
    (x.child? field).map Place.node = x.node.children.find? (·.field == some field) := by
  rw [← children_node, List.find?_map]
  rfl

theorem find?_zipIdx {α : Type} (q : α → Bool) (xs : List α) (k : Nat) :
    ((xs.zipIdx k).find? fun a => q a.1).map Prod.snd = (xs.findIdx? q).map (· + k) := by
  induction xs generalizing k with
  | nil => rfl
  | cons a r ih =>
    rw [List.zipIdx_cons, List.find?_cons, List.findIdx?_cons]
    cases q a with
    | true => simp
    | false =>
      simp only [Bool.false_eq_true, if_false, ih, Option.map_map]
      congr 1
      funext i
      simp only [Function.comp_apply]
      omega

theorem child?_route (x : Place) (field : String) :
    (x.child? field).map route = (x.node.children.findIdx? (·.field == some field)).map (· :: x.route) := by
  have hindex := find?_zipIdx (fun n : Node => n.field == some field) x.node.children 0
  have hroute (a : Node × Nat) : route ⟨a.1, (a.2, x.node) :: x.trail⟩ = a.2 :: x.route := rfl
  simp only [Nat.add_zero, Option.map_id'] at hindex
  rw [← hindex, child?, children, List.find?_map, Option.map_map, Option.map_map]
  simp only [Function.comp_def, hroute]

theorem all_of_mem_walk (h : x.node.all q) (hy : y ∈ x.walk) : y.node.all q := by
  rw [mem_walk] at hy
  induction hy with
  | refl => exact h
  | tail _ hc ih => exact Node.all_child ih (node_mem_children (mem_children_of_named hc))

theorem height_le_each {n : Node} {cs : List Node} (h : n ∈ cs) : height n ≤ heightEach cs := by
  induction cs with
  | nil => cases h
  | cons d r ih =>
    rw [heightEach]
    cases h with
    | head => exact Nat.le_max_left _ _
    | tail _ h => exact Nat.le_trans (ih h) (Nat.le_max_right _ _)

theorem height_lt (h : c ∈ x.children) : height c.node < height x.node := by
  have hnode := node_mem_children h
  obtain ⟨⟨kind, named, field, start, stop, children⟩, trail⟩ := x
  rw [height]
  exact Nat.lt_succ_of_le (height_le_each hnode)

theorem height_pos (n : Node) : 0 < height n := by
  cases n
  rw [height]
  exact Nat.succ_pos _

end Place

namespace Parsed
variable {p : Parsed}

theorem memberParts?_congr {x y : Option Place} (h : x.map Place.node = y.map Place.node) :
    p.memberParts? x = p.memberParts? y := by
  have hchild {x y : Place} (h : x.node = y.node) (field : String) :
      (x.child? field).map p.textOf = (y.child? field).map p.textOf := by
    have htext (o : Option Place) : o.map p.textOf = (o.map Place.node).map fun n => p.textOf (.top n) := by
      cases o <;> rfl
    rw [htext, htext, Place.child?_node, Place.child?_node, h]
  have hparts (x : Place) : p.memberParts? (some x) = if x.kind != "member_expression" then none else
      ((x.child? "object").map p.textOf).bind fun o => ((x.child? "property").map p.textOf).map fun m => (o, m) := by
    rw [Parsed.memberParts?]
    cases x.child? "object" <;> cases x.child? "property" <;> rfl
  cases x with
  | none =>
    cases y with
    | none => rfl
    | some y => cases h
  | some x =>
    cases y with
    | none => cases h
    | some y =>
      have hnode : x.node = y.node := Option.some.inj h
      have hkind : x.kind = y.kind := congrArg Node.kind hnode
      rw [hparts, hparts, hkind, hchild hnode, hchild hnode]

end Parsed
end CodeAudit
