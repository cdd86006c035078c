import CodeAudit.Text.Case
import CodeAudit.Text.Search

set_option autoImplicit false

namespace CodeAudit.Text
variable {pat s before m : List Char}

theorem occursIn_iff : occursIn pat s ↔ pat <:+: s := by
  induction s with
  | nil => simp [occursIn]
  | cons c r ih => simp [occursIn, List.infix_cons_iff, ih]

theorem lowerFrom_append (before a r : List Char) :
    ∃ u, lowerFrom before (a ++ r) = u ++ lowerFrom (a.reverse ++ before) r := by
  induction a generalizing before with
  | nil => exact ⟨[], rfl⟩
  | cons c a ih =>
    obtain ⟨u, hu⟩ := ih (c :: before)
    refine ⟨lowerChar before c (a ++ r) ++ u, ?_⟩
    rw [List.cons_append, lowerFrom, hu, List.append_assoc, List.reverse_cons, List.append_assoc]
    rfl

theorem lowerChar_of_lt {c : Char} (h : c.toNat < 128) (before after : List Char) :
    lowerChar before c after = [c.toLower] := by
  have hsigma : c ≠ 'Σ' := by
    rintro rfl
    exact absurd h (by decide)
  have hdotted : c ≠ 'İ' := by
    rintro rfl
    exact absurd h (by decide)
  rw [lowerChar, if_neg hsigma, if_neg hdotted, if_pos h]

theorem lowerFrom_of_lt (h : ∀ c ∈ m, c.toNat < 128) (before r : List Char) :
    lowerFrom before (m ++ r) = m.map Char.toLower ++ lowerFrom (m.reverse ++ before) r := by
  induction m generalizing before with
  | nil => rfl
  | cons c m ih =>
    rw [List.cons_append, lowerFrom, lowerChar_of_lt (h c List.mem_cons_self),
      ih fun d hd => h d (List.mem_cons_of_mem c hd)]
    simp

theorem toNat_lt_of_toLower {c : Char} (h : c.toLower.toNat < 128) : c.toNat < 128 := by
  unfold Char.toLower at h
  split at h
  · rename_i hc
    exact Nat.lt_of_le_of_lt (UInt32.le_iff_toNat_le.1 hc.2) (by decide)
  · exact h

def Mentions (s word : String) : Prop := ∃ m, m <:+: s.toList ∧ m.map Char.toLower = word.toList

theorem Mentions.contains_lowered {s word : String} (h : Mentions s word) (hword : ∀ c ∈ word.toList, c.toNat < 128) :
    contains (lowered s) word := by
  obtain ⟨m, ⟨a, b, hs⟩, hm⟩ := h
  have hascii : ∀ c ∈ m, c.toNat < 128 := fun c hc =>
    toNat_lt_of_toLower (hword _ (hm ▸ List.mem_map_of_mem hc))
  obtain ⟨u, hu⟩ := lowerFrom_append [] a (m ++ b)
  rw [lowerFrom_of_lt hascii, hm] at hu
  rw [contains, occursIn_iff, lowered, String.toList_ofList, lower, ← hs, List.append_assoc, hu, ← List.append_assoc]
  exact List.infix_append _ _ _

end CodeAudit.Text
