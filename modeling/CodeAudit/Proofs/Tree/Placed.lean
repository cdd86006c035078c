import CodeAudit.Proofs.Tree.Nodes

set_option autoImplicit false

namespace CodeAudit.Place
variable {root : Node} {x y c : Place}

inductive Placed (root : Node) : Place → Prop where
  | top : Placed root (top root)
  | child {x c : Place} (h : Placed root x) (hc : c ∈ x.children) : Placed root c

theorem mem_children : c ∈ x.children ↔ ∃ i n, x.node.children[i]? = some n ∧ c = ⟨n, (i, x.node) :: x.trail⟩ := by
  simp only [children, List.mem_map, Prod.exists, List.mem_zipIdx_iff_getElem?]
  constructor
  · rintro ⟨n, i, hn, rfl⟩
    exact ⟨i, n, hn, rfl⟩
  · rintro ⟨i, n, hn, rfl⟩
    exact ⟨n, i, hn, rfl⟩

theorem parent?_of_mem (h : c ∈ x.children) : c.parent? = some x := by
  obtain ⟨i, n, -, rfl⟩ := mem_children.1 h
  rfl

theorem ancestors_of_mem (h : c ∈ x.children) : c.ancestors = x :: x.ancestors := by
  obtain ⟨i, n, -, rfl⟩ := mem_children.1 h
  rfl

theorem route_of_mem (h : c ∈ x.children) : ∃ i, c.route = i :: x.route := by
  obtain ⟨i, n, -, rfl⟩ := mem_children.1 h
  exact ⟨i, rfl⟩

theorem mem_of_child? {field : String} (h : x.child? field = some c) : c ∈ x.children := List.mem_of_find?_eq_some h

theorem Placed.of_child? {field : String} (hx : Placed root x) (h : x.child? field = some c) : Placed root c :=
  .child hx (mem_of_child? h)

theorem placed_of_mem_walk (h : x ∈ (top root).walk) : Placed root x := by
  rw [mem_walk] at h
  induction h with
  | refl => exact .top
  | tail _ hc ih => exact .child ih (mem_children_of_named hc)

theorem Placed.parent (h : Placed root x) (hy : x.parent? = some y) : Placed root y := by
  cases h with
  | top => cases hy
  | child hz hc =>
    cases (parent?_of_mem hc).symm.trans hy
    exact hz

/-- The indices along the way tell the places of a tree apart. -/
theorem Placed.eq_of_route (hx : Placed root x) (hy : Placed root y) (h : x.route = y.route) : x = y := by
  induction hx generalizing y with
  | top =>
    cases hy with
    | top => rfl
    | child _ hc =>
      obtain ⟨i, n, -, rfl⟩ := Place.mem_children.1 hc
      cases h
  | child hx hc ih =>
    obtain ⟨i, n, hn, rfl⟩ := Place.mem_children.1 hc
    cases hy with
    | top => cases h
    | child hy hd =>
      obtain ⟨j, m, hm, rfl⟩ := Place.mem_children.1 hd
      obtain ⟨rfl, hroute⟩ := List.cons.inj h
      obtain rfl := ih hy hroute
      rw [Option.some.inj (hn.symm.trans hm)]

theorem Placed.isAt_iff (hx : Placed root x) (hy : Placed root y) : x.isAt y ↔ x = y := by
  rw [isAt, beq_iff_eq]
  exact ⟨hx.eq_of_route hy, fun h => by rw [h]⟩

end CodeAudit.Place
