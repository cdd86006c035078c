import CodeAudit.Proofs.Tree.Placed
import Mathlib.Data.List.Nodup

/-!
The walk and the scope, place by place: in the order of the one recursion along the named children, and each place
once. As long as no place on a pile lies below another, none is taken twice.
-/
set_option autoImplicit false

namespace CodeAudit.Place
variable {opens : Place → Bool} {pile : List Place} {x y f c : Place}

theorem eq_walk_iff {order : Place → List Place} :
    order = walk ↔ ∀ x, order x = x :: x.namedChildren.flatMap order := by
  constructor
  · rintro rfl
    exact walk_cons
  · intro h
    have hpreorder : Preordered (fun _ => true) order := h
    funext x
    rw [walk, hpreorder.drain_eq, List.flatMap_singleton]

/-- Recursion that goes on below a child only if the child is no function has one solution, the scope. -/
theorem eq_scope_iff {order : Place → List Place} : order = scope ↔
    ∀ x, order x = x.namedChildren.flatMap fun c => c :: if c.isFunction then [] else order c := by
  have hbelow (order : Place → List Place) (c : Place) :
      (if c.isFunction then [] else c.namedChildren.flatMap order) =
        (below (fun z => !z.isFunction) c).flatMap order := by
    rw [below]
    cases c.isFunction <;> rfl
  constructor
  · rintro rfl x
    rw [scope_eq_drain, drain_eq_flatMap]
    congr 1
    funext c
    rw [drain_singleton, ← hbelow, scope_eq_drain, ← drain_eq_flatMap]
  · intro h
    have hpreorder : Preordered (fun z => !z.isFunction) fun c => c :: if c.isFunction then [] else order c := by
      intro c
      rw [← hbelow, ← h]
    funext x
    rw [h, scope_eq_drain, hpreorder.drain_eq]

theorem Reaches.suffix (h : Reaches opens x y) : x.route <:+ y.route := by
  induction h with
  | refl => exact List.suffix_rfl
  | tail _ hc ih =>
    obtain ⟨i, hroute⟩ := route_of_mem (mem_children_of_below hc)
    rw [hroute]
    exact ih.trans (List.suffix_cons i _)

def Apart (x y : Place) : Prop := ¬x.route <:+ y.route ∧ ¬y.route <:+ x.route

theorem pairwise_apart_children (x : Place) : x.children.Pairwise Apart := by
  have hindex : x.node.children.zipIdx.Pairwise fun a b => a.2 ≠ b.2 := by
    apply List.pairwise_map.1
    rw [List.zipIdx_map_snd]
    exact List.nodup_range'
  -- Children are equally far down, so that one lies on the way to the other only if it is the other.
  have happart {i j : Nat} (h : i ≠ j) : ¬i :: x.route <:+ j :: x.route :=
    fun hsuffix => h (List.cons.inj (hsuffix.eq_of_length rfl)).1
  refine List.pairwise_map.2 (hindex.imp ?_)
  rintro ⟨n, i⟩ ⟨m, j⟩ h
  exact ⟨happart h, happart h.symm⟩

theorem pairwise_apart_below (opens : Place → Bool) (x : Place) : (below opens x).Pairwise Apart := by
  rw [below]
  split
  · exact (pairwise_apart_children x).filter _
  · exact .nil

theorem Apart.of_child (h : Apart x y) (hc : c ∈ x.children) : Apart c y := by
  obtain ⟨i, hroute⟩ := route_of_mem hc
  refine ⟨fun hsuffix => h.1 ?_, fun hsuffix => ?_⟩
  · rw [hroute] at hsuffix
    exact (List.suffix_cons i x.route).trans hsuffix
  · rw [hroute, List.suffix_cons_iff] at hsuffix
    cases hsuffix with
    | inl heq => exact h.1 (heq ▸ List.suffix_cons i x.route)
    | inr hsuffix => exact h.2 hsuffix

/-- A place is replaced on the pile by what comes next below it: they stay apart. -/
theorem pairwise_apart_append (h : (x :: pile).Pairwise Apart) : (below opens x ++ pile).Pairwise Apart := by
  obtain ⟨hx, hpile⟩ := List.pairwise_cons.1 h
  refine List.pairwise_append.2 ⟨pairwise_apart_below opens x, hpile, fun c hc y hy => ?_⟩
  exact (hx y hy).of_child (mem_children_of_below hc)

theorem route_notMem_drain (h : (x :: pile).Pairwise Apart) :
    x.route ∉ (drain opens (below opens x ++ pile)).map route := by
  rw [List.mem_map]
  rintro ⟨y, hy, hroute⟩
  obtain ⟨z, hz, hreaches⟩ := mem_drain.1 hy
  have hsuffix : z.route <:+ x.route := hroute ▸ hreaches.suffix
  cases List.mem_append.1 hz with
  | inl hz =>
    obtain ⟨i, hi⟩ := route_of_mem (mem_children_of_below hz)
    have hlength := hsuffix.length_le
    rw [hi, List.length_cons] at hlength
    omega
  | inr hz => exact ((List.pairwise_cons.1 h).1 z hz).2 hsuffix

theorem nodup_drain (h : pile.Pairwise Apart) : ((drain opens pile).map route).Nodup := by
  induction pile using drain.induct opens with
  | case1 => simp [drain]
  | case2 x pile ih =>
    rw [push_reverse] at ih
    rw [drain_cons, List.map_cons, List.nodup_cons]
    exact ⟨route_notMem_drain h, ih (pairwise_apart_append h)⟩

theorem nodup_scope (x : Place) : (x.scope.map route).Nodup := by
  rw [scope_eq_drain]
  exact nodup_drain ((pairwise_apart_children x).filter _)

theorem length_route_of_mem_scope (h : y ∈ x.scope) : x.route.length < y.route.length := by
  obtain ⟨c, hc, hreaches⟩ := mem_scope.1 h
  obtain ⟨i, hroute⟩ := route_of_mem (mem_children_of_named hc)
  have hlength := hreaches.suffix.length_le
  rwa [hroute, List.length_cons] at hlength

theorem length_route_of_mem_ancestors (h : f ∈ y.ancestors) : f.route.length < y.route.length := by
  obtain ⟨n, trail⟩ := y
  induction trail generalizing n with
  | nil => cases h
  | cons s trail ih =>
    cases h with
    | head => exact Nat.lt_succ_self _
    | tail _ h => exact Nat.lt_succ_of_lt (ih s.2 h)

theorem notMem_scope_self (x : Place) : x ∉ x.scope := fun h => Nat.lt_irrefl _ (length_route_of_mem_scope h)

theorem Reaches.opens_of_mem_ancestors (h : Reaches opens x y) (hf : f ∈ y.ancestors) :
    opens f ∨ f ∈ x.ancestors := by
  induction h with
  | refl => exact .inr hf
  | tail _ hc ih =>
    rw [ancestors_of_mem (mem_children_of_below hc)] at hf
    cases hf with
    | head => exact .inl (mem_below.1 hc).1
    | tail _ hf => exact ih hf

theorem notMem_scope_of_function (hf : f ∈ x.scope) (hfunction : f.isFunction) (hy : f ∈ y.ancestors) :
    y ∉ x.scope := by
  intro h
  obtain ⟨c, hc, hreaches⟩ := mem_scope.1 h
  have hlength := length_route_of_mem_scope hf
  cases hreaches.opens_of_mem_ancestors hy with
  | inl hopens => simp [hfunction] at hopens
  | inr habove =>
    rw [ancestors_of_mem (mem_children_of_named hc)] at habove
    cases habove with
    | head => exact Nat.lt_irrefl _ hlength
    | tail _ habove => exact Nat.lt_asymm hlength (length_route_of_mem_ancestors habove)

/-- The walk and the scope are the recursions along the named children, the second one not going on below a function.
So the walk meets once the place itself and each place to which named children lead from it, and no other; and the scope
those to which they lead from its children without going on from a function, and so never the place itself, be it a
function or not, and nothing below a function that it meets. -/
theorem walk_scope_recursion :
    (∀ order : Place → List Place, order = walk ↔ ∀ x, order x = x :: x.namedChildren.flatMap order) ∧
    (∀ order : Place → List Place, order = scope ↔
      ∀ x, order x = x.namedChildren.flatMap fun c => c :: if c.isFunction then [] else order c) ∧
    ∀ x : Place,
      (x.walk.map route).Nodup ∧ (∀ y, y ∈ x.walk ↔ Relation.ReflTransGen (fun z c => c ∈ z.namedChildren) x y) ∧
      (x.scope.map route).Nodup ∧ (∀ y, y ∈ x.scope ↔ ∃ c ∈ x.namedChildren,
        Relation.ReflTransGen (fun z d => z.isFunction = false ∧ d ∈ z.namedChildren) c y) ∧
      x ∉ x.scope ∧ ∀ f ∈ x.scope, f.isFunction → ∀ y, f ∈ y.ancestors → y ∉ x.scope := by
  refine ⟨fun _ => eq_walk_iff, fun _ => eq_scope_iff, fun x => ⟨?_, fun y => ?_, nodup_scope x, fun y => ?_, ?_, ?_⟩⟩
  · exact nodup_drain (List.pairwise_singleton Apart x)
  · exact mem_walk
  · have hrelation : (fun z d => z.isFunction = false ∧ d ∈ z.namedChildren) =
        fun z d => d ∈ below (fun z => !z.isFunction) z := by
      funext z d
      rw [mem_below, Bool.not_eq_true']
    rw [mem_scope, Reaches, hrelation]
  · exact notMem_scope_self x
  · exact fun f hf hfunction y hy => notMem_scope_of_function hf hfunction hy

/-- A function in a function: the scope of the outer one holds the inner one, and not what lies below that. -/
theorem walk_scope_recursion_nested :
    let name : Node := ⟨"identifier", true, none, 9, 10, []⟩
    let inner : Node := ⟨"arrow_function", true, none, 5, 12, [name]⟩
    let outer : Node := ⟨"function_declaration", true, none, 0, 15, [inner]⟩
    let f : Place := ⟨inner, [(0, outer)]⟩
    let y : Place := ⟨name, [(0, inner), (0, outer)]⟩
    (top outer).isFunction ∧ f ∈ (top outer).scope ∧ f.isFunction ∧ f ∈ y.ancestors ∧ y ∈ (top outer).walk ∧
      y ∉ (top outer).scope := by
  intro name inner outer f y
  have hf : f ∈ (top outer).scope := List.mem_of_getElem? (i := 0) rfl
  have hy : y ∈ (top outer).walk := List.mem_of_getElem? (i := 2) rfl
  have habove : f ∈ y.ancestors := List.mem_cons_self
  obtain ⟨-, -, -, -, -, hbelow⟩ := walk_scope_recursion.2.2 (top outer)
  exact ⟨rfl, hf, rfl, habove, hy, hbelow f hf rfl y habove⟩

end CodeAudit.Place
