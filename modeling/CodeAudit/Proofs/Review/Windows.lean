import CodeAudit.Proofs.Text.Lines
import CodeAudit.Review.Chunk
import CodeAudit.Source.File
import Mathlib

/-!
Where the windows over a text lie. Their number has a closed form, each begins one step behind the one
before it, and only the last may be shorter; a text is cut into no more pieces than its lines ask for.
-/
set_option autoImplicit false

namespace CodeAudit

namespace Window

theorem of_valid {size overlap : Int} (hs : 1 ≤ size) (ho : 0 ≤ overlap) (hl : overlap < size) :
    ∃ w, of size overlap = .ok w ∧ (w.size : Int) = size ∧ (w.overlap : Int) = overlap := by
  have h : 0 ≤ overlap ∧ overlap < size := ⟨ho, hl⟩
  refine ⟨⟨size.toNat, overlap.toNat, by omega⟩, ?_, by simp; omega, by simp [ho]⟩
  rw [of, if_neg (by omega), if_neg (by omega), dif_pos h]

theorem of_invalid {size overlap : Int} (h : ¬(1 ≤ size ∧ 0 ≤ overlap ∧ overlap < size)) :
    ∃ m, of size overlap = .error (.config m) := by
  unfold of
  split
  · exact ⟨_, rfl⟩
  · split
    · exact ⟨_, rfl⟩
    · split
      · omega
      · exact ⟨_, rfl⟩

theorem of_eq_ok {size overlap : Int} {w : Window} (h : of size overlap = .ok w) :
    (w.size : Int) = size ∧ (w.overlap : Int) = overlap := by
  by_cases hvalid : 1 ≤ size ∧ 0 ≤ overlap ∧ overlap < size
  · obtain ⟨v, hv, hsize, hoverlap⟩ := of_valid hvalid.1 hvalid.2.1 hvalid.2.2
    cases hv.symm.trans h
    exact ⟨hsize, hoverlap⟩
  · obtain ⟨m, hm⟩ := of_invalid hvalid
    cases hm.symm.trans h

variable (w : Window)

theorem step_pos : 0 < w.step := Nat.sub_pos_of_lt w.overlap_lt

theorem step_add_overlap : w.step + w.overlap = w.size :=
  Nat.sub_add_cancel (Nat.le_of_lt w.overlap_lt)

def count (total : Nat) : Nat :=
  if total ≤ w.size then 1 else (total - w.overlap - 1) / w.step + 1

theorem succ_lt_count_iff {total k : Nat} : k + 1 < w.count total ↔ k * w.step + w.size < total := by
  have hs := w.step_add_overlap
  unfold count
  split
  · omega
  · rw [Nat.add_lt_add_iff_right, ← Nat.succ_le_iff, Nat.le_div_iff_mul_le w.step_pos,
      Nat.succ_mul]
    omega

theorem count_pos (total : Nat) : 0 < w.count total := by
  unfold count
  split
  · exact Nat.one_pos
  · exact Nat.succ_pos _

theorem count_of_le {total : Nat} (h : total ≤ w.size) : w.count total = 1 := if_pos h

theorem count_of_lt {total : Nat} (h : w.size < total) :
    w.count total = w.count (total - w.step) + 1 := by
  have hs := w.step_add_overlap
  have hp := w.step_pos
  unfold count
  rw [if_neg (by omega)]
  split
  · rw [Nat.div_eq_of_lt_le] <;> omega
  · have hd := Nat.div_eq_sub_div hp (show w.step ≤ total - w.overlap - 1 by omega)
    rw [hd]
    congr 3
    omega

/-- The windows over the lines from `start` on, in closed form. -/
theorem spans_eq (total start : Nat) : w.spans total start =
    (List.range (w.count (total - start))).map fun k =>
      (start + k * w.step, min (start + k * w.step + w.size) total) := by
  induction start using Window.spans.induct w total with
  | case1 start h =>
    rw [spans, if_pos h, w.count_of_le (by omega)]
    simp [Nat.min_eq_right h]
  | case2 start h ih =>
    have hc := w.count_of_lt (show w.size < total - start by omega)
    rw [Nat.sub_sub] at hc
    have hm : min (start + w.size) total = start + w.size := Nat.min_eq_left (by omega)
    have hk (k : Nat) : start + (k + 1) * w.step = start + w.step + k * w.step := by
      rw [Nat.succ_mul]
      omega
    rw [spans, if_neg h, ih, hc, List.range_succ_eq_map]
    simp [Function.comp_def, hm, hk]

/-- Beyond the size the number is a quotient rounded up. -/
theorem count_eq_ceil {total : Nat} (h : w.size < total) : (w.count total : Int) =
    ⌈((total - w.overlap : Int) : ℚ) / ((w.size - w.overlap : Int) : ℚ)⌉ := by
  have hs := w.step_add_overlap
  have hz : (w.size - w.overlap : Int) = w.step := by omega
  have hq : (0 : ℚ) < (w.step : Int) := by exact_mod_cast w.step_pos
  have hc : 0 + 1 < w.count total := w.succ_lt_count_iff.2 (by omega)
  obtain ⟨m, hm⟩ : ∃ m, w.count total = m + 2 := ⟨w.count total - 2, by omega⟩
  have hl : m * w.step + w.size < total := w.succ_lt_count_iff.1 (by omega)
  have hh : ¬(m + 1) * w.step + w.size < total := w.succ_lt_count_iff.not.1 (by omega)
  have h₁ : (m + 1) * w.step + w.overlap < total := by
    rw [Nat.succ_mul]
    omega
  have h₂ : total ≤ (m + 2) * w.step + w.overlap := by
    rw [Nat.succ_mul]
    omega
  have q₁ : ((m + 1) * (w.step : Int) + w.overlap : ℚ) < total := by exact_mod_cast h₁
  have q₂ : (total : ℚ) ≤ (m + 2) * (w.step : Int) + w.overlap := by exact_mod_cast h₂
  rw [hz, hm, eq_comm, Int.ceil_eq_iff, lt_div_iff₀ hq, div_le_iff₀ hq]
  push_cast at q₁ q₂ ⊢
  constructor <;> linarith

theorem succ_mul_step_add_overlap (k : Nat) :
    (k + 1) * w.step + w.overlap = k * w.step + w.size := by
  have hs := w.step_add_overlap
  rw [Nat.succ_mul]
  omega

theorem mul_step_lt {total k : Nat} (ht : 0 < total) (h : k < w.count total) :
    k * w.step < total := by
  cases k with
  | zero => simpa using ht
  | succ k =>
    have hk := w.succ_lt_count_iff.1 h
    have hs := w.succ_mul_step_add_overlap k
    omega

end Window

namespace Chunk

def Holds (c : Chunk) (line : Int) : Prop := c.first ≤ line ∧ line ≤ c.last

variable {w : Window} {text : String} {k : Nat} {c d : Chunk}

theorem split_length : (split w text).length = w.count (Text.lineCount text.toList) := by
  simp [split, Window.spans_eq, Text.lineCount]

theorem split_length_pos (w : Window) (text : String) : 0 < (split w text).length := by
  rw [split_length]
  exact w.count_pos _

theorem succ_lt_split_length : k + 1 < (split w text).length ↔
    k * w.step + w.size < Text.lineCount text.toList := by
  rw [split_length, w.succ_lt_count_iff]

theorem split_getElem? (h : (split w text)[k]? = some c) :
    k < w.count (Text.lineCount text.toList) ∧
      c = ofSpan (Text.lines text.toList) (w.count (Text.lineCount text.toList)) k
        (k * w.step, min (k * w.step + w.size) (Text.lineCount text.toList)) := by
  have hk := (List.getElem?_eq_some_iff.1 h).1
  rw [split_length] at hk
  refine ⟨hk, ?_⟩
  rw [Text.lineCount] at hk ⊢
  simpa [split, Window.spans_eq, List.getElem?_range hk, eq_comm] using h

theorem split_ends (h : (split w text)[k]? = some c) :
    c.first = k * w.step + 1 ∧
      c.last = min (k * w.step + w.size) (Text.lineCount text.toList) ∧
      k * w.step < Text.lineCount text.toList := by
  obtain ⟨hk, rfl⟩ := split_getElem? h
  exact ⟨by simp [ofSpan], by simp [ofSpan], w.mul_step_lt (Text.lineCount_pos _) hk⟩

theorem split_last (h : (split w text)[k]? = some c) (hk : k + 1 < (split w text).length) :
    c.last = k * w.step + w.size := by
  have hl := (split_ends h).2.1
  have hn := succ_lt_split_length.1 hk
  omega

theorem split_end (h : (split w text)[k]? = some c) (hk : ¬k + 1 < (split w text).length) :
    c.last = Text.lineCount text.toList := by
  have hl := (split_ends h).2.1
  have hn := succ_lt_split_length.not.1 hk
  omega

theorem split_nonempty (h : (split w text)[k]? = some c) : 1 ≤ c.first ∧ c.first ≤ c.last := by
  obtain ⟨hf, hl, hk⟩ := split_ends h
  have hw := w.overlap_lt
  omega

theorem split_content (h : (split w text)[k]? = some c) : Text.lines c.content.toList =
    ((Text.lines text.toList).take (k * w.step + w.size)).drop (k * w.step) := by
  have hw := w.overlap_lt
  obtain ⟨hk, rfl⟩ := split_getElem? h
  have hk := w.mul_step_lt (Text.lineCount_pos _) hk
  have hm : (Text.lines text.toList).take (min (k * w.step + w.size) (Text.lineCount text.toList)) =
      (Text.lines text.toList).take (k * w.step + w.size) := by
    rw [← List.take_take, Text.lineCount, List.take_length]
  simp only [ofSpan, String.toList_ofList, hm]
  refine Text.lines_unlines (fun l hl => ?_) (List.ne_nil_of_length_pos ?_)
  · exact Text.not_mem_of_mem_lines (List.mem_of_mem_take (List.mem_of_mem_drop hl))
  · rw [Text.lineCount] at hk
    simp only [List.length_drop, List.length_take]
    omega

theorem split_covers {line : Int} : (∃ c ∈ split w text, c.Holds line) ↔
    1 ≤ line ∧ line ≤ Text.lineCount text.toList := by
  constructor
  · rintro ⟨c, hc, h₁, h₂⟩
    obtain ⟨k, hk⟩ := List.mem_iff_getElem?.1 hc
    have hn := split_nonempty hk
    have hl := (split_ends hk).2.1
    omega
  · rintro ⟨h₁, h₂⟩
    have hd := Nat.div_add_mod' (line - 1).toNat w.step
    have hm := Nat.mod_lt (line - 1).toNat w.step_pos
    have hs := w.step_add_overlap
    generalize (line - 1).toNat / w.step = q at hd
    have hp := split_length_pos w text
    -- Behind the last piece's start there may be room for further steps, but no further pieces.
    by_cases hq : q + 1 < (split w text).length
    · have hk : (split w text)[q]? = some _ := List.getElem?_eq_getElem (by omega)
      have hf := (split_ends hk).1
      have hl := split_last hk hq
      exact ⟨_, List.mem_of_getElem? hk, by omega, by omega⟩
    · obtain ⟨n, hn⟩ : ∃ n, (split w text).length = n + 1 := ⟨_, (Nat.sub_add_cancel hp).symm⟩
      have hk : (split w text)[n]? = some _ := List.getElem?_eq_getElem (by omega)
      have hf := (split_ends hk).1
      have hl := split_end hk (by omega)
      have hle : n * w.step ≤ q * w.step := Nat.mul_le_mul_right _ (by omega)
      exact ⟨_, List.mem_of_getElem? hk, by omega, by omega⟩

theorem split_shared (hc : (split w text)[k]? = some c) (hd : (split w text)[k + 1]? = some d) :
    (Finset.Icc c.first c.last ∩ Finset.Icc d.first d.last).card = w.overlap := by
  have hk := (List.getElem?_eq_some_iff.1 hd).1
  have hn := succ_lt_split_length.1 hk
  have hl := split_last hc hk
  obtain ⟨hf, -, -⟩ := split_ends hc
  obtain ⟨hf', hl', -⟩ := split_ends hd
  have hs := w.succ_mul_step_add_overlap k
  have hi : Finset.Icc c.first c.last ∩ Finset.Icc d.first d.last = Finset.Icc d.first c.last := by
    ext l
    simp only [Finset.mem_inter, Finset.mem_Icc]
    have hw := w.overlap_lt
    omega
  rw [hi, Int.card_Icc]
  omega

theorem split_new (hc : (split w text)[k]? = some c) {j : Nat} (hj : j < k)
    (hd : (split w text)[j]? = some d) : d.last < c.last := by
  have hk := (List.getElem?_eq_some_iff.1 hc).1
  have hj' : j + 1 < (split w text).length := by omega
  have hn := succ_lt_split_length.1 hj'
  have hl := split_last hd hj'
  have hl' := (split_ends hc).2.1
  have hp := w.step_pos
  have hm : (j + 1) * w.step ≤ k * w.step := Nat.mul_le_mul_right _ hj
  rw [Nat.succ_mul] at hm
  omega

/-- How the pieces of a text lie in windows of `size` lines that share `overlap` of them. -/
structure Tiling (size overlap : Int) (text : String) (cs : List Chunk) : Prop where
  length_eq : (cs.length : Int) =
    if (Text.lineCount text.toList : Int) ≤ size then 1
    else ⌈((Text.lineCount text.toList - overlap : Int) : ℚ) / ((size - overlap : Int) : ℚ)⌉
  piece (k : Nat) (c : Chunk) : cs[k]? = some c → c.index = k ∧ c.total = cs.length ∧
    c.first = k * (size - overlap) + 1 ∧
    c.last = min (k * (size - overlap) + size) (Text.lineCount text.toList)
  content : ∀ c ∈ cs, Text.lines c.content.toList =
    ((Text.lines text.toList).take c.last.toNat).drop (c.first - 1).toNat
  covers (line : Int) : (∃ c ∈ cs, c.Holds line) ↔ 1 ≤ line ∧ line ≤ Text.lineCount text.toList
  full (k : Nat) (c : Chunk) : cs[k]? = some c → k + 1 < cs.length → c.lineCount = size
  shared (k : Nat) (c d : Chunk) : cs[k]? = some c → cs[k + 1]? = some d →
    ((Finset.Icc c.first c.last ∩ Finset.Icc d.first d.last).card : Int) = overlap
  /-- No piece could be left out for those before it. -/
  new (k : Nat) (c : Chunk) : cs[k]? = some c →
    ∃ line, c.Holds line ∧ ∀ j d, j < k → cs[j]? = some d → ¬d.Holds line
  ending (path : String) : ∃ c, cs.getLast? = some c ∧ c.last = (SourceFile.mk path text).lineCount

/-- Whatever the text, a valid window cuts it into pieces, as many as it takes and no more, that lie one
step apart. -/
theorem tiling_split (text : String) {size overlap : Int} (hs : 1 ≤ size) (ho : 0 ≤ overlap)
    (hl : overlap < size) :
    ∃ w, Window.of size overlap = .ok w ∧ Tiling size overlap text (split w text) := by
  obtain ⟨w, hw, rfl, rfl⟩ := Window.of_valid hs ho hl
  have hstep : (w.size - w.overlap : Int) = w.step := by
    have := w.step_add_overlap
    omega
  refine ⟨w, hw, {
    length_eq := ?_
    piece k c hc := ?_
    content c hc := ?_
    covers _ := split_covers
    full k c hc hk := ?_
    shared k c d hc hd := by exact_mod_cast split_shared hc hd
    new k c hc := ?_
    ending path := ?_ }⟩
  · rw [split_length]
    split
    · rw [w.count_of_le (by omega)]
      rfl
    · exact w.count_eq_ceil (by omega)
  · obtain ⟨hf, hl, -⟩ := split_ends hc
    obtain ⟨-, rfl⟩ := split_getElem? hc
    rw [hstep, split_length]
    exact ⟨rfl, rfl, hf, by simpa using hl⟩
  · obtain ⟨k, hk⟩ := List.mem_iff_getElem?.1 hc
    obtain ⟨hf, hl, -⟩ := split_ends hk
    have hf : (c.first - 1).toNat = k * w.step := by omega
    have hl : c.last.toNat = min (k * w.step + w.size) (Text.lineCount text.toList) := by omega
    rw [split_content hk, hf, hl, ← List.take_take, Text.lineCount, List.take_length]
  · have hf := (split_ends hc).1
    have hl := split_last hc hk
    rw [lineCount]
    omega
  · have hn := (split_nonempty hc).2
    refine ⟨c.last, ⟨hn, Int.le_refl _⟩, fun j d hj hd h => ?_⟩
    exact Int.not_lt.2 h.2 (split_new hc hj hd)
  · have hp := split_length_pos w text
    have hc := List.getElem?_eq_getElem (Nat.sub_lt hp Nat.one_pos)
    have he := split_end hc (by omega)
    exact ⟨_, by rw [List.getLast?_eq_getElem?, hc], he⟩

/-- Seven lines in windows of three. -/
theorem tiling_split_seven : ∃ w, Window.of 3 1 = .ok w ∧
    Tiling 3 1 "a\nb\nc\nd\ne\nf\ng" (split w "a\nb\nc\nd\ne\nf\ng") :=
  tiling_split _ (by decide) (by decide) (by decide)

end Chunk
end CodeAudit
