import CodeAudit.Proofs.Tree.Nodes

set_option autoImplicit false

namespace CodeAudit

/-- If the node is a pair of parentheses, it holds one expression and, comments aside, nothing else with a name. -/
def Node.isFilled (n : Node) : Bool :=
  n.kind != "parenthesized_expression" || (n.children.filter fun c => c.named && c.kind != "comment").length == 1

namespace Place
variable {x c t : Place} {ls : List Place}

def expressions (x : Place) : List Place := x.namedChildren.filter (·.kind != "comment")

def opensWithComment (x : Place) : Bool := kindIs "comment" x.namedChildren.head?

/-- The parentheses around a place, from the outermost on. -/
inductive Layers : Place → List Place → Place → Prop
  | bare {t : Place} (ht : t.kind ≠ "parenthesized_expression") : Layers t [] t
  | layer {x c t : Place} {ls : List Place} (hx : x.kind = "parenthesized_expression") (hc : x.expressions = [c])
      (h : Layers c ls t) : Layers x (x :: ls) t

theorem mem_expressions : c ∈ x.expressions ↔ c ∈ x.children ∧ c.node.named ∧ c.kind ≠ "comment" := by
  rw [expressions, namedChildren, List.mem_filter, List.mem_filter, bne_iff_ne, and_assoc]

theorem length_expressions (x : Place) :
    x.expressions.length = (x.node.children.filter fun c => c.named && c.kind != "comment").length := by
  rw [← children_node, List.filter_map, List.length_map, expressions, namedChildren, List.filter_filter]
  simp only [Function.comp_def, Bool.and_comm]
  rfl

theorem exists_layers (h : x.node.all Node.isFilled) : ∃ ls t, Layers x ls t := by
  generalize hn : height x.node = k
  induction k using Nat.strongRecOn generalizing x with
  | ind k ih =>
    by_cases hx : x.kind = "parenthesized_expression"
    · have hfilled := Node.all_self h
      have hkind : (x.node.kind != "parenthesized_expression") = false := bne_eq_false_iff_eq.2 hx
      rw [Node.isFilled, hkind, Bool.false_or, beq_iff_eq, ← length_expressions, List.length_eq_one_iff] at hfilled
      obtain ⟨c, hc⟩ := hfilled
      have hchild : c ∈ x.children := (mem_expressions.1 (hc ▸ List.mem_cons_self)).1
      obtain ⟨ls, t, hlayers⟩ := ih (height c.node) (hn ▸ height_lt hchild)
        (Node.all_child h (node_mem_children hchild)) rfl
      exact ⟨x :: ls, t, .layer hx hc hlayers⟩
    · exact ⟨[], x, .bare hx⟩

theorem head_of_expressions (h : x.expressions = [c]) :
    ∃ d ds, x.namedChildren = d :: ds ∧ (d.kind = "comment" ∨ d = c) := by
  unfold expressions at h
  cases hnamed : x.namedChildren with
  | nil =>
    rw [hnamed] at h
    cases h
  | cons d ds =>
    refine ⟨d, ds, rfl, ?_⟩
    rw [hnamed, List.filter_cons] at h
    split at h
    · exact .inr (List.cons.inj h).1
    · rename_i hd
      exact .inl (by simpa using hd)

theorem unwrapFrom_bare {trail : List (Nat × Node)} {n : Node} (fuel : Nat) (h : n.kind ≠ "parenthesized_expression") :
    unwrapFrom trail fuel n = some ⟨n, trail⟩ := by
  cases fuel with
  | zero => rfl
  | succ fuel => rw [unwrapFrom, if_neg (by simpa using h)]

/-- Going through the layers leads to what is within, unless one of them opens with a comment. -/
theorem Layers.kindIs_unwrapFrom {kind : String} (hkind : kind ≠ "comment") {fuel : Nat} (h : Layers x ls t)
    (hfuel : height x.node ≤ fuel) :
    kindIs kind (unwrapFrom x.trail fuel x.node) ↔ t.kind = kind ∧ ∀ l ∈ ls, l.opensWithComment = false := by
  induction h generalizing fuel with
  | @bare t ht =>
    rw [unwrapFrom_bare fuel ht, kindIs, beq_iff_eq]
    simp
  | @layer x c t ls hx hc hlayers ih =>
    obtain ⟨d, ds, hnamed, hd⟩ := head_of_expressions hc
    have hchild : d ∈ x.children := (List.mem_filter.1 (show d ∈ x.namedChildren by rw [hnamed]; simp)).1
    obtain ⟨fuel, rfl⟩ : ∃ k, fuel = k + 1 := ⟨fuel - 1, by have := height_pos x.node; omega⟩
    have hopens : x.opensWithComment = (d.kind == "comment") := by
      rw [opensWithComment, hnamed]
      rfl
    have hstep : unwrapFrom x.trail (fuel + 1) x.node = unwrapFrom d.trail fuel d.node := by
      have hx : (x.node.kind == "parenthesized_expression") = true := beq_iff_eq.2 hx
      have hnamed : (Place.mk x.node x.trail).namedChildren = d :: ds := hnamed
      rw [unwrapFrom, if_pos hx, hnamed]
    rw [hstep]
    by_cases hcomment : d.kind = "comment"
    · have hbare : d.node.kind ≠ "parenthesized_expression" := fun h => absurd (hcomment.symm.trans h) (by decide)
      rw [unwrapFrom_bare fuel hbare, kindIs, beq_iff_eq]
      constructor
      · intro h
        exact absurd (h.symm.trans hcomment) hkind
      · rintro ⟨-, h⟩
        rw [h x List.mem_cons_self, hcomment] at hopens
        cases hopens
    · obtain rfl := hd.resolve_left hcomment
      rw [ih (by have := height_lt hchild; omega), List.forall_mem_cons, hopens, beq_eq_false_iff_ne,
        and_iff_right hcomment]

theorem Layers.kindIs_unwrapParens {kind : String} (hkind : kind ≠ "comment") (h : Layers x ls t) :
    kindIs kind (unwrapParens (some x)) ↔ t.kind = kind ∧ ∀ l ∈ ls, l.opensWithComment = false :=
  h.kindIs_unwrapFrom hkind (Nat.le_refl _)

end Place
end CodeAudit
