import CodeAudit.Proofs.Tree.Placed
import Mathlib.Data.List.Perm.Basic

/-!
Functions inside functions. Below a place every place lies in the scope of the nearest function above it, or of
none, so that the scopes of the functions and what is left outside of them make up the walk.
-/
set_option autoImplicit false

namespace CodeAudit.Place
variable {opens : Place → Bool} {pile : List Place} {x y c : Place}

/-- Outside of functions, as far as the ancestors are concerned. -/
def isLoose (x : Place) : Bool := !x.ancestors.any isFunction

theorem isLoose_of_mem (h : c ∈ x.children) : c.isLoose = (!x.isFunction && x.isLoose) := by
  rw [isLoose, ancestors_of_mem h, List.any_cons, Bool.not_or, isLoose]

theorem not_isLoose_of_reaches (hx : x.isFunction) (hc : c ∈ x.children) (h : Reaches opens c y) :
    y.isLoose = false := by
  induction h with
  | refl => rw [isLoose_of_mem hc, hx, Bool.not_true, Bool.false_and]
  | tail _ hd ih => rw [isLoose_of_mem (mem_children_of_below hd), ih, Bool.and_false]

theorem drain_eq_filter (h : ∀ x ∈ pile, x.isLoose) :
    drain (fun z => !z.isFunction) pile = (drain (fun _ => true) pile).filter isLoose := by
  induction pile using drain.induct fun z => !z.isFunction with
  | case1 => simp [drain]
  | case2 x pile ih =>
    obtain ⟨hx, hpile⟩ := List.forall_mem_cons.1 h
    rw [push_reverse] at ih
    rw [drain_cons, drain_cons, List.filter_cons_of_pos hx]
    congr 1
    cases hfunction : x.isFunction with
    | true =>
      have hnone : below (fun z => !z.isFunction) x = [] := by rw [below, hfunction]; rfl
      have hbelow : (drain (fun _ => true) (below (fun _ => true) x)).filter isLoose = [] := by
        rw [List.filter_eq_nil_iff]
        intro y hy
        obtain ⟨c, hc, hreaches⟩ := mem_drain.1 hy
        rw [not_isLoose_of_reaches hfunction (mem_children_of_below hc) hreaches]
        exact Bool.false_ne_true
      rw [hnone, List.nil_append] at ih ⊢
      rw [ih hpile, drain_append, List.filter_append, hbelow, List.nil_append]
    | false =>
      have hall : below (fun z => !z.isFunction) x = below (fun _ => true) x := by rw [below, hfunction]; rfl
      rw [hall] at ih ⊢
      refine ih fun y hy => ?_
      cases List.mem_append.1 hy with
      | inl hy => rw [isLoose_of_mem (mem_children_of_below hy), hfunction, hx]; rfl
      | inr hy => exact hpile y hy

/-- The scopes of the functions that are met from a pile, and what is left outside of them. -/
theorem drain_perm (pile : List Place) : (drain (fun _ => true) pile).Perm
    (((drain (fun _ => true) pile).filter isFunction).flatMap scope ++ drain (fun z => !z.isFunction) pile) := by
  induction pile using drain.induct fun _ => true with
  | case1 => simp [drain]
  | case2 x pile ih =>
    have hscope : drain (fun z => !z.isFunction) (below (fun _ => true) x) = x.scope := (scope_eq_drain x).symm
    rw [push_reverse, drain_append (fun z => !z.isFunction), hscope] at ih
    rw [drain_cons, drain_cons, List.filter_cons]
    cases hfunction : x.isFunction with
    | true =>
      -- A function is left outside of its own scope, and holds what would be left below it.
      have hnone : below (fun z => !z.isFunction) x = [] := by rw [below, hfunction]; rfl
      rw [if_pos rfl, List.flatMap_cons, hnone, List.nil_append]
      refine (ih.cons x).trans (List.Perm.trans ?_ List.perm_middle.symm)
      rw [← List.append_assoc]
      exact (List.perm_append_comm.append_right _).cons x
    | false =>
      have hall : below (fun z => !z.isFunction) x = below (fun _ => true) x := by rw [below, hfunction]; rfl
      rw [if_neg Bool.false_ne_true, hall, drain_append (fun z => !z.isFunction), hscope]
      exact (ih.cons x).trans List.perm_middle.symm

theorem walk_top_perm (root : Node) : (top root).walk.Perm
    (((top root).walk.filter isFunction).flatMap scope ++ (top root).walk.filter isLoose) := by
  have hloose : ∀ x ∈ [top root], x.isLoose := List.forall_mem_singleton.2 rfl
  have hperm := drain_perm [top root]
  rwa [drain_eq_filter hloose] at hperm

end CodeAudit.Place
