import CodeAudit.Proofs.Review.Windows

set_option autoImplicit false

namespace CodeAudit.Chunk

def contentFrom (c : Chunk) (line : Nat) : List Char :=
  Text.unlines ((Text.lines c.content.toList).drop line)

/-- Pieces that follow each other, put together: all of the first, and of each other one, on a new line,
what is behind the lines it shares with the one before it. -/
def rejoin (overlap : Nat) : List Chunk → List Char
  | [] => []
  | c :: cs => c.content.toList ++ cs.flatMap fun d => '\n' :: d.contentFrom overlap

theorem rejoin_concat {overlap : Nat} {cs : List Chunk} (h : cs ≠ []) (d : Chunk) :
    rejoin overlap (cs ++ [d]) = rejoin overlap cs ++ '\n' :: d.contentFrom overlap := by
  obtain ⟨c, cs, rfl⟩ := List.exists_cons_of_ne_nil h
  simp [rejoin]

variable {w : Window} {text : String}

theorem contentFrom_split {k : Nat} {d : Chunk} (h : (split w text)[k + 1]? = some d) :
    d.contentFrom w.overlap = Text.unlines (((Text.lines text.toList).take
      ((k + 1) * w.step + w.size)).drop (k * w.step + w.size)) := by
  rw [contentFrom, split_content h, List.drop_drop, w.succ_mul_step_add_overlap]

theorem rejoin_take {k : Nat} (h : k < (split w text).length) :
    rejoin w.overlap ((split w text).take (k + 1)) =
      Text.unlines ((Text.lines text.toList).take (k * w.step + w.size)) := by
  induction k with
  | zero =>
    have hc : (split w text)[0]? = some _ := List.getElem?_eq_getElem h
    have hl := split_content hc
    rw [Nat.zero_mul, List.drop_zero] at hl
    rw [List.take_one, List.head?_eq_getElem?, hc, Nat.zero_mul, ← hl, Text.unlines_lines]
    simp [rejoin]
  | succ k ih =>
    have hd : (split w text)[k + 1]? = some _ := List.getElem?_eq_getElem h
    have hk := succ_lt_split_length.1 h
    rw [Text.lineCount] at hk
    have hw := w.overlap_lt
    have hs := w.succ_mul_step_add_overlap k
    have hn : (split w text).take (k + 1) ≠ [] := List.ne_nil_of_length_pos (by
      rw [List.length_take]
      omega)
    have hle : k * w.step + w.size ≤ (k + 1) * w.step + w.size := by omega
    have ht : (Text.lines text.toList).take (k * w.step + w.size) =
        ((Text.lines text.toList).take ((k + 1) * w.step + w.size)).take (k * w.step + w.size) := by
      rw [List.take_take, Nat.min_eq_left hle]
    -- The lines that the next piece adds are those between the two counts.
    rw [List.take_add_one, hd, Option.toList_some, rejoin_concat hn, ih (by omega),
      contentFrom_split hd, ht, ← Text.unlines_append, List.take_append_drop]
    · refine List.ne_nil_of_length_pos ?_
      simp only [List.length_take]
      omega
    · refine List.ne_nil_of_length_pos ?_
      simp only [List.length_drop, List.length_take]
      omega

/-- A text that was cut is its pieces put together. -/
theorem rejoin_split (w : Window) (text : String) :
    String.ofList (rejoin w.overlap (split w text)) = text := by
  obtain ⟨k, hk⟩ : ∃ k, (split w text).length = k + 1 :=
    ⟨_, (Nat.sub_add_cancel (split_length_pos w text)).symm⟩
  have hlast : ¬k + 1 < (split w text).length := by omega
  have hn := succ_lt_split_length.not.1 hlast
  rw [Text.lineCount] at hn
  have hr := rejoin_take (show k < (split w text).length by omega)
  rw [← hk, List.take_length, List.take_of_length_le (by omega), Text.unlines_lines] at hr
  rw [hr, String.ofList_toList]

end CodeAudit.Chunk
