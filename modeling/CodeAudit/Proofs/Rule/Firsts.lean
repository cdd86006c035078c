import CodeAudit.Rule.Statement
import Mathlib.Data.List.Basic

set_option autoImplicit false

namespace CodeAudit.Rule
variable {α β κ μ : Type} [BEq κ] {key : α → κ}

theorem mem_of_mem_firsts {seen : List κ} {xs : List α} {x : α}
    (h : x ∈ firstsBy.go key seen xs) : x ∈ xs := by
  induction xs generalizing seen with
  | nil => exact h
  | cons y r ih =>
    unfold firstsBy.go at h
    split at h
    · exact List.mem_cons_of_mem y (ih h)
    · cases h with
      | head => exact List.mem_cons_self
      | tail _ h => exact List.mem_cons_of_mem y (ih h)

theorem go_firstsBy_append (seen : List κ) (xs ys : List α) :
    firstsBy.go key seen (xs ++ ys) = firstsBy.go key seen xs ++
      firstsBy.go key (((firstsBy.go key seen xs).map key).reverse ++ seen) ys := by
  induction xs generalizing seen with
  | nil => rfl
  | cons x r ih =>
    rw [List.cons_append, firstsBy.go, firstsBy.go]
    split
    · exact ih seen
    · rw [ih, List.cons_append, List.map_cons, List.reverse_cons, List.append_assoc, List.singleton_append]

variable [LawfulBEq κ] [BEq μ] [LawfulBEq μ]

theorem mem_map_go_firstsBy {seen : List κ} {xs : List α} {k : κ} :
    k ∈ (firstsBy.go key seen xs).map key ↔ k ∈ xs.map key ∧ k ∉ seen := by
  induction xs generalizing seen with
  | nil => simp [firstsBy.go]
  | cons x r ih =>
    rw [firstsBy.go, List.map_cons, List.mem_cons]
    split
    · rename_i hx
      have hx : key x ∈ seen := List.contains_iff_mem.1 hx
      rw [ih]
      constructor
      · rintro ⟨hk, hseen⟩
        exact ⟨.inr hk, hseen⟩
      · rintro ⟨rfl | hk, hseen⟩
        · exact absurd hx hseen
        · exact ⟨hk, hseen⟩
    · rename_i hx
      have hx : key x ∉ seen := fun hmem => hx (List.contains_iff_mem.2 hmem)
      rw [List.map_cons, List.mem_cons, ih, List.mem_cons, not_or]
      constructor
      · rintro (rfl | ⟨hk, -, hseen⟩)
        · exact ⟨.inl rfl, hx⟩
        · exact ⟨.inr hk, hseen⟩
      · rintro ⟨hk, hseen⟩
        by_cases heq : k = key x
        · exact .inl heq
        · exact .inr ⟨hk.resolve_left heq, heq, hseen⟩

theorem nodup_map_go_firstsBy (seen : List κ) (xs : List α) : ((firstsBy.go key seen xs).map key).Nodup := by
  induction xs generalizing seen with
  | nil => exact List.nodup_nil
  | cons x r ih =>
    rw [firstsBy.go]
    split
    · exact ih seen
    · rw [List.map_cons, List.nodup_cons]
      refine ⟨fun hmem => ?_, ih _⟩
      exact (mem_map_go_firstsBy.1 hmem).2 List.mem_cons_self

theorem go_firstsBy_filter {q : α → Bool} (hq : ∀ x y, key x = key y → q x = q y) {seen seen' : List κ} {xs : List α}
    (hseen : ∀ x, q x → (key x ∈ seen ↔ key x ∈ seen')) :
    (firstsBy.go key seen xs).filter q = firstsBy.go key seen' (xs.filter q) := by
  induction xs generalizing seen seen' with
  | nil => rfl
  | cons x r ih =>
    rw [firstsBy.go, List.filter_cons]
    by_cases hx : q x
    · have hcontains : seen.contains (key x) = seen'.contains (key x) := by
        rw [Bool.eq_iff_iff, List.contains_iff_mem, List.contains_iff_mem]
        exact hseen x hx
      rw [if_pos hx, firstsBy.go, hcontains]
      split
      · exact ih hseen
      · rw [List.filter_cons_of_pos hx]
        congr 1
        exact ih fun y hy => by rw [List.mem_cons, List.mem_cons, hseen y hy]
    · rw [if_neg hx]
      split
      · exact ih hseen
      · rw [List.filter_cons_of_neg hx]
        refine ih fun y hy => ?_
        -- what is left out has its key with nothing that stays
        have hne : key y ≠ key x := fun heq => hx (hq y x heq ▸ hy)
        rw [List.mem_cons, or_iff_right hne, hseen y hy]

theorem firstsBy_filter {q : α → Bool} (hq : ∀ x y, key x = key y → q x = q y) (xs : List α) :
    (firstsBy key xs).filter q = firstsBy key (xs.filter q) :=
  go_firstsBy_filter hq fun _ _ => Iff.rfl

theorem go_firstsBy_map {key' : β → μ} {g : α → β} {move : κ → μ} (hmove : ∀ a b, move a = move b → a = b)
    (hkey : ∀ x, key' (g x) = move (key x)) (seen : List κ) (xs : List α) :
    firstsBy.go key' (seen.map move) (xs.map g) = (firstsBy.go key seen xs).map g := by
  induction xs generalizing seen with
  | nil => rfl
  | cons x r ih =>
    have hseen : (seen.map move).contains (key' (g x)) = seen.contains (key x) := by
      rw [hkey, Bool.eq_iff_iff, List.contains_iff_mem, List.contains_iff_mem]
      exact List.mem_map_of_injective fun a b => hmove a b
    have hrest := ih (key x :: seen)
    rw [List.map_cons, ← hkey] at hrest
    rw [List.map_cons, firstsBy.go, firstsBy.go, hseen]
    split
    · exact ih seen
    · rw [hrest, List.map_cons]

theorem firstsBy_map {key' : β → μ} {g : α → β} {move : κ → μ} (hmove : ∀ a b, move a = move b → a = b)
    (hkey : ∀ x, key' (g x) = move (key x)) (xs : List α) : firstsBy key' (xs.map g) = (firstsBy key xs).map g :=
  go_firstsBy_map hmove hkey [] xs

end CodeAudit.Rule
