import CodeAudit.Text.Lines
import Mathlib.Data.List.Basic

set_option autoImplicit false

namespace CodeAudit.Text

theorem unlines_lines (s : List Char) : unlines (lines s) = s := List.intercalate_splitOn '\n'

theorem lines_unlines {ls : List (List Char)} (h : ∀ l ∈ ls, '\n' ∉ l) (hn : ls ≠ []) :
    lines (unlines ls) = ls := List.splitOn_intercalate '\n' h hn

theorem lineCount_pos (s : List Char) : 0 < lineCount s :=
  List.length_pos_iff.2 (List.splitOn_ne_nil '\n' s)

theorem lineCount_eq (s : List Char) : lineCount s = s.count '\n' + 1 := by
  unfold lineCount lines
  induction s with
  | nil => simp [List.splitOn_nil]
  | cons c s ih =>
    rw [List.splitOn_cons_eq_if_modifyHead, List.count_cons]
    split
    · simp [ih]
    · simp [ih]

theorem not_mem_of_mem_lines {s l : List Char} (h : l ∈ lines s) : '\n' ∉ l := by
  induction s generalizing l with
  | nil =>
    obtain rfl : l = [] := by simpa [lines, List.splitOn_nil] using h
    simp
  | cons c s ih =>
    unfold lines at h ih
    rw [List.splitOn_cons_eq_if_modifyHead] at h
    split at h
    · obtain rfl | h := List.mem_cons.1 h
      · simp
      · exact ih h
    · rename_i hc
      obtain ⟨m, ms, hm⟩ := List.exists_cons_of_ne_nil (List.splitOn_ne_nil '\n' s)
      rw [hm, List.modifyHead_cons, List.mem_cons] at h
      rw [hm] at ih
      obtain rfl | h := h
      · have hs := ih (List.mem_cons_self)
        simp only [beq_iff_eq] at hc
        simp [Ne.symm hc, hs]
      · exact ih (List.mem_cons_of_mem _ h)

theorem unlines_append {ls ms : List (List Char)} (hl : ls ≠ []) (hm : ms ≠ []) :
    unlines (ls ++ ms) = unlines ls ++ '\n' :: unlines ms := by
  induction ls with
  | nil => exact absurd rfl hl
  | cons l ls ih =>
    cases ls with
    | nil =>
      obtain ⟨m, ms, rfl⟩ := List.exists_cons_of_ne_nil hm
      simp [unlines, List.intercalate_cons_cons]
    | cons k ls =>
      have hk := ih (by simp)
      simp only [unlines, List.cons_append, List.intercalate_cons_cons, List.append_assoc] at hk ⊢
      rw [hk]

end CodeAudit.Text
