import CodeAudit.Proofs.Tree.Scope
import CodeAudit.Rule.Size
import Mathlib.Algebra.BigOperators.Ring.Finset
import Mathlib.Algebra.Order.BigOperators.Group.List
import Mathlib.Algebra.Order.Ring.Nat

set_option autoImplicit false

namespace CodeAudit.Rule
open Place

theorem countP_walk_top (root : Node) : (top root).walk.countP isDecision =
    (((top root).walk.filter isFunction).map fun f => f.scope.countP isDecision).sum +
      (top root).walk.countP fun x => isDecision x && !x.ancestors.any isFunction := by
  rw [(walk_top_perm root).countP_eq isDecision, List.countP_append, List.countP_flatMap, List.countP_filter]
  rfl

theorem functionComplexity_sub_one (f : Place) : (functionComplexity f : Int) - 1 = f.scope.countP isDecision := by
  rw [functionComplexity]
  omega

/-- What a file has more than a single way through it is what its functions have, added up, and the forks that are in
no function. -/
theorem fileComplexity_shared (root : Node) :
    (fileComplexity (top root) : Int) - 1 =
      (((top root).walk.filter isFunction).map fun f => (functionComplexity f : Int) - 1).sum +
        (top root).walk.countP (fun x => isDecision x && !x.ancestors.any isFunction) ∧
    ∀ f ∈ (top root).walk, f.isFunction → functionComplexity f ≤ fileComplexity (top root) := by
  have hshared := countP_walk_top root
  constructor
  · have hsum (fs : List Place) : (fs.map fun f => (functionComplexity f : Int) - 1).sum =
        ((fs.map fun f => f.scope.countP isDecision).sum : Nat) := by
      simp only [functionComplexity_sub_one, Nat.cast_list_sum, List.map_map, Function.comp_def]
    rw [hsum, fileComplexity, hshared]
    omega
  · intro f hf hfunction
    have hmem : f.scope.countP isDecision ∈
        ((top root).walk.filter isFunction).map fun f => f.scope.countP isDecision :=
      List.mem_map_of_mem (List.mem_filter.2 ⟨hf, hfunction⟩)
    have hle := List.single_le_sum (fun n _ => Nat.zero_le n) _ hmem
    rw [functionComplexity, fileComplexity]
    omega

/-- A fork outside of functions, with two more in a function below it, and the same in a function. -/
theorem fileComplexity_shared_nested :
    let node (kind : String) (children : List Node) : Node := ⟨kind, true, none, 0, 0, children⟩
    let arrow := node "arrow_function" [node "ternary_expression" [], node "catch_clause" []]
    let branch := node "if_statement" [arrow]
    let outer := node "function_declaration" [branch]
    let root := node "program" [outer, branch]
    let inner : Place := ⟨arrow, [(0, branch), (0, outer), (0, root)]⟩
    inner ∈ (top root).walk ∧ inner.isFunction ∧ functionComplexity inner = 3 ∧
      functionComplexity inner ≤ fileComplexity (top root) ∧
      (fileComplexity (top root) : Int) - 1 = (1 + 2 + 2) + 1 := by
  intro node arrow branch outer root inner
  have hmem : inner ∈ (top root).walk := List.mem_of_getElem? (i := 3) rfl
  obtain ⟨hshared, hle⟩ := fileComplexity_shared root
  exact ⟨hmem, rfl, rfl, hle inner hmem rfl, hshared.trans (by decide +kernel)⟩

end CodeAudit.Rule
