import CodeAudit.Proofs.Text.Case
import CodeAudit.Proofs.Text.Trimmed

set_option autoImplicit false

namespace CodeAudit.Text

namespace Table

theorem Run.has_iff {r : Run} {n : Nat} : r.has n ↔ r.first ≤ n ∧ n ≤ r.last ∧ (n - r.first) % r.step = 0 := by
  simp only [Run.has, Bool.and_eq_true, decide_eq_true_eq, beq_iff_eq, and_assoc]

def Shift.image (s : Shift) : Run :=
  ⟨(s.run.first + s.distance).toNat, (s.run.last + s.distance).toNat, s.run.step⟩

/-- The two runs have no member in common: they lie apart, or interlock. -/
def Run.misses (r t : Run) : Bool :=
  Nat.blt r.last t.first || Nat.blt t.last r.first ||
    ((r.step == 2 || r.first == r.last) && t.step == 2 && (r.first + t.first) % 2 == 1)

theorem Run.not_has_of_misses {r t : Run} {n : Nat} (h : r.misses t) (hn : r.has n) : t.has n = false := by
  rw [← Bool.not_eq_true]
  intro ht
  rw [Run.has_iff] at hn ht
  simp only [Run.misses, Bool.or_eq_true, Bool.and_eq_true, Nat.blt_eq, beq_iff_eq] at h
  obtain (h | h) | ⟨⟨hr, htwo⟩, hodd⟩ := h
  · omega
  · omega
  · rw [htwo] at ht
    obtain hr | hr := hr
    · rw [hr] at hn
      omega
    · omega

theorem Shift.has_image {s : Shift} {n m : Nat} (hfirst : 0 ≤ s.run.first + s.distance) (hn : s.run.has n)
    (hm : (m : Int) = n + s.distance) : s.image.has m := by
  rw [Run.has_iff] at hn ⊢
  dsimp only [Shift.image]
  have hsame : m - (s.run.first + s.distance).toNat = n - s.run.first := by omega
  rw [hsame]
  exact ⟨by omega, by omega, hn.2.2⟩

def blankRuns : List Run := [⟨9, 13, 1⟩, ⟨28, 32, 1⟩, ⟨133, 133, 1⟩, ⟨160, 160, 1⟩, ⟨5760, 5760, 1⟩, ⟨8192, 8202, 1⟩,
  ⟨8232, 8233, 1⟩, ⟨8239, 8239, 1⟩, ⟨8287, 8287, 1⟩, ⟨12288, 12288, 1⟩]

def dottedRun : Run := ⟨304, 304, 1⟩

theorem image_misses : lowerRuns.all (fun s =>
    (dottedRun :: (blankRuns ++ lowerRuns.map Shift.run)).all s.image.misses) = true := by
  decide +kernel

theorem image_range : ∀ s ∈ lowerRuns, 0 ≤ s.run.first + s.distance ∧ (s.run.last + s.distance < 0xd800 ∨
    0xe000 ≤ s.run.first + s.distance ∧ s.run.last + s.distance < 0x110000) := by
  decide +kernel

/-- Only the letters of ASCII and the Kelvin sign have a counterpart in ASCII. -/
theorem image_ascii : ∀ s ∈ lowerRuns, s = ⟨⟨65, 90, 1⟩, 32⟩ ∨ s = ⟨⟨8490, 8490, 1⟩, -8383⟩ ∨
    128 ≤ s.run.first ∧ 128 ≤ s.run.first + s.distance := by
  decide +kernel

end Table

open Table
variable {s t : List Char} {c d : Char}

theorem has_of_isBlank (h : isBlank c) : ∃ r ∈ blankRuns, r.has c.toNat := by
  simp only [isBlank, Bool.or_eq_true, Bool.and_eq_true, decide_eq_true_eq, beq_iff_eq] at h
  simp only [blankRuns, List.exists_mem_cons_iff, List.not_mem_nil, false_and, exists_false, or_false, Run.has_iff]
  omega

theorem shifted_cases (c : Char) : (∀ s ∈ lowerRuns, s.run.has c.toNat = false) ∧ shifted lowerRuns c = c ∨
    ∃ s ∈ lowerRuns, s.run.has c.toNat ∧ ((shifted lowerRuns c).toNat : Int) = c.toNat + s.distance := by
  unfold shifted
  cases hs : lowerRuns.find? fun s => s.run.has c.toNat with
  | none => exact .inl ⟨fun s hmem => by simpa using List.find?_eq_none.1 hs s hmem, rfl⟩
  | some s =>
    have hmem := List.mem_of_find?_eq_some hs
    have hhas : s.run.has c.toNat := by simpa using List.find?_some hs
    obtain ⟨hfirst, hrange⟩ := image_range s hmem
    have hbounds := Run.has_iff.1 hhas
    have hvalid : (c.toNat + s.distance).toNat.isValidChar := by
      unfold Nat.isValidChar
      omega
    have hcode : (Char.ofNat (c.toNat + s.distance).toNat).toNat = (c.toNat + s.distance).toNat := by
      rw [Char.ofNat, dif_pos hvalid]
      rfl
    refine .inr ⟨s, hmem, hhas, ?_⟩
    dsimp only
    rw [hcode]
    omega

/-- What a run maps to is in none of the runs that counterparts miss. -/
theorem not_has_shifted {s : Shift} {r : Run} (hs : s ∈ lowerRuns) (hc : s.run.has c.toNat)
    (hshift : ((shifted lowerRuns c).toNat : Int) = c.toNat + s.distance)
    (hr : r ∈ dottedRun :: (blankRuns ++ lowerRuns.map Shift.run)) : r.has (shifted lowerRuns c).toNat = false :=
  Run.not_has_of_misses (List.all_eq_true.1 (List.all_eq_true.1 image_misses s hs) r hr)
    (Shift.has_image (image_range s hs).1 hc hshift)

/-- The character has no small counterpart of its own. -/
structure IsSmall (c : Char) : Prop where
  run : ∀ s ∈ lowerRuns, s.run.has c.toNat = false
  dotted : c ≠ 'İ'

theorem isSmall_shifted (hc : c ≠ 'İ') : IsSmall (shifted lowerRuns c) := by
  obtain ⟨hnone, hsame⟩ | ⟨s, hs, hhas, hshift⟩ := shifted_cases c
  · rw [hsame]
    exact ⟨hnone, hc⟩
  · constructor
    · intro t ht
      exact not_has_shifted hs hhas hshift (List.mem_cons_of_mem _ (List.mem_append_right _ (List.mem_map_of_mem ht)))
    · intro hdotted
      have hmiss := not_has_shifted hs hhas hshift List.mem_cons_self
      rw [hdotted] at hmiss
      exact absurd hmiss (by decide)

theorem isBlank_of_shifted (h : isBlank (shifted lowerRuns c)) : isBlank c := by
  obtain ⟨-, hsame⟩ | ⟨s, hs, hhas, hshift⟩ := shifted_cases c
  · rwa [hsame] at h
  · obtain ⟨r, hr, hblank⟩ := has_of_isBlank h
    have hmiss := not_has_shifted hs hhas hshift (List.mem_cons_of_mem _ (List.mem_append_left _ hr))
    rw [hblank] at hmiss
    cases hmiss

theorem toNat_toLower (c : Char) : c.toLower.toNat = if 65 ≤ c.toNat ∧ c.toNat ≤ 90 then c.toNat + 32 else c.toNat := by
  unfold Char.toLower
  split
  · rename_i h
    have hlow : 65 ≤ c.toNat := UInt32.le_iff_toNat_le.1 h.1
    have hhigh : c.toNat ≤ 90 := UInt32.le_iff_toNat_le.1 h.2
    rw [if_pos ⟨hlow, hhigh⟩]
    change (c.val + 32).toNat = c.val.toNat + 32
    change c.val.toNat ≤ 90 at hhigh
    rw [UInt32.toNat_add]
    exact Nat.mod_eq_of_lt (by simp only [UInt32.reduceToNat]; omega)
  · rename_i h
    rw [if_neg]
    rintro ⟨hlow, hhigh⟩
    exact h ⟨UInt32.le_iff_toNat_le.2 hlow, UInt32.le_iff_toNat_le.2 hhigh⟩

theorem toNat_toUpper (c : Char) :
    c.toUpper.toNat = if 97 ≤ c.toNat ∧ c.toNat ≤ 122 then c.toNat - 32 else c.toNat := by
  unfold Char.toUpper
  split
  · rename_i h
    have hlow : 97 ≤ c.toNat := UInt32.le_iff_toNat_le.1 h.1
    have hhigh : c.toNat ≤ 122 := UInt32.le_iff_toNat_le.1 h.2
    rw [if_pos ⟨hlow, hhigh⟩]
    change (c.val + 4294967264).toNat = c.val.toNat - 32
    change 97 ≤ c.val.toNat at hlow
    rw [UInt32.toNat_add]
    simp only [UInt32.reduceToNat]
    have hsize := c.val.toNat_lt
    omega
  · rename_i h
    rw [if_neg]
    rintro ⟨hlow, hhigh⟩
    exact h ⟨UInt32.le_iff_toNat_le.2 hlow, UInt32.le_iff_toNat_le.2 hhigh⟩

theorem eq_of_toNat (h : c.toNat = d.toNat) : c = d := Char.ext (UInt32.toNat.inj h)

theorem toLower_eq_shifted (h : c.toNat < 128) : c.toLower = shifted lowerRuns c := by
  refine eq_of_toNat ?_
  rw [toNat_toLower]
  obtain ⟨hnone, hsame⟩ | ⟨s, hs, hhas, hshift⟩ := shifted_cases c
  · have hcapital := Run.has_iff.not.1 (Bool.eq_false_iff.1 (hnone ⟨⟨65, 90, 1⟩, 32⟩ List.mem_cons_self))
    dsimp only at hcapital
    rw [hsame, if_neg]
    omega
  · have hbounds := Run.has_iff.1 hhas
    obtain rfl | rfl | ⟨hfirst, -⟩ := image_ascii s hs
    · dsimp only at hbounds hshift
      rw [if_pos ⟨hbounds.1, hbounds.2.1⟩]
      omega
    · dsimp only at hbounds
      omega
    · omega

/-- What a character becomes, whatever stands around it: its counterpart, but for the sigma and the dotted capital I. -/
theorem lowerChar_cases (before : List Char) (c : Char) (after : List Char) :
    c = 'Σ' ∧ lowerChar before c after ∈ [['σ'], ['ς']] ∨ c = 'İ' ∧ lowerChar before c after = ['i', '\u0307'] ∨
      (c ≠ 'Σ' ∧ c ≠ 'İ') ∧ lowerChar before c after = [shifted lowerRuns c] := by
  by_cases hsigma : c = 'Σ'
  · refine .inl ⟨hsigma, ?_⟩
    rw [lowerChar, if_pos hsigma]
    split <;> decide
  · by_cases hdotted : c = 'İ'
    · exact .inr (.inl ⟨hdotted, by rw [lowerChar, if_neg hsigma, if_pos hdotted]⟩)
    · refine .inr (.inr ⟨⟨hsigma, hdotted⟩, ?_⟩)
      rw [lowerChar, if_neg hsigma, if_neg hdotted]
      split
      · rename_i h
        rw [toLower_eq_shifted h]
      · rfl

theorem IsSmall.lowerChar (h : IsSmall c) (before after : List Char) : lowerChar before c after = [c] := by
  obtain ⟨hsigma, -⟩ | ⟨hdotted, -⟩ | ⟨-, hsame⟩ := lowerChar_cases before c after
  · have hrun := h.run ⟨⟨931, 939, 1⟩, 32⟩ (by decide +kernel)
    rw [hsigma] at hrun
    exact absurd hrun (by decide)
  · exact absurd hdotted h.dotted
  · obtain ⟨-, hshift⟩ | ⟨s, hs, hhas, -⟩ := shifted_cases c
    · rw [hsame, hshift]
    · rw [h.run s hs] at hhas
      cases hhas

theorem isSmall_of_mem {m : List Char} (hm : m ∈ [['σ'], ['ς'], ['i', '\u0307']]) (hd : d ∈ m) : IsSmall d := by
  have hsmall : ∀ m ∈ [['σ'], ['ς'], ['i', '\u0307']],
      m.all fun d => (∀ s ∈ lowerRuns, s.run.has d.toNat = false) ∧ d ≠ 'İ' := by
    decide +kernel
  obtain ⟨hruns, hdotted⟩ := of_decide_eq_true (List.all_eq_true.1 (hsmall m hm) d hd)
  exact ⟨hruns, hdotted⟩

theorem isSmall_of_mem_lowerChar {before after : List Char} (h : d ∈ lowerChar before c after) : IsSmall d := by
  obtain ⟨-, hm⟩ | ⟨-, hm⟩ | ⟨hc, hm⟩ := lowerChar_cases before c after
  · exact isSmall_of_mem (List.mem_append_left [['i', '\u0307']] hm) h
  · exact isSmall_of_mem (by rw [hm]; decide) h
  · rw [hm, List.mem_singleton] at h
    exact h ▸ isSmall_shifted hc.2

theorem isBlank_of_mem_lowerChar {before after : List Char} (h : d ∈ lowerChar before c after) (hd : isBlank d) :
    isBlank c := by
  have hnone (m : List Char) (hm : m ∈ [['σ'], ['ς'], ['i', '\u0307']]) (d : Char) (hd : d ∈ m) :
      isBlank d = false := by
    have hall : ∀ m ∈ [['σ'], ['ς'], ['i', '\u0307']], m.all fun d => isBlank d = false := by decide
    exact of_decide_eq_true (List.all_eq_true.1 (hall m hm) d hd)
  obtain ⟨-, hm⟩ | ⟨-, hm⟩ | ⟨-, hm⟩ := lowerChar_cases before c after
  · rw [hnone _ (List.mem_append_left [['i', '\u0307']] hm) d h] at hd
    cases hd
  · rw [hnone _ (by rw [hm]; decide) d h] at hd
    cases hd
  · rw [hm, List.mem_singleton] at h
    exact isBlank_of_shifted (h ▸ hd)

theorem lowerChar_ne_nil (before : List Char) (c : Char) (after : List Char) : lowerChar before c after ≠ [] := by
  obtain ⟨-, hm⟩ | ⟨-, hm⟩ | ⟨-, hm⟩ := lowerChar_cases before c after
  · intro h
    rw [h] at hm
    exact absurd hm (by decide)
  · rw [hm]
    exact List.cons_ne_nil _ _
  · rw [hm]
    exact List.cons_ne_nil _ _

theorem lowerFrom_of_small (h : ∀ c ∈ s, IsSmall c) (before : List Char) : lowerFrom before s = s := by
  induction s generalizing before with
  | nil => rfl
  | cons c s ih =>
    obtain ⟨hc, hs⟩ := List.forall_mem_cons.1 h
    rw [lowerFrom, hc.lowerChar, ih hs, List.singleton_append]

theorem exists_of_mem_lowerFrom {before : List Char} (h : d ∈ lowerFrom before s) :
    ∃ c ∈ s, ∃ front back, d ∈ lowerChar front c back := by
  induction s generalizing before with
  | nil => cases h
  | cons c s ih =>
    rw [lowerFrom, List.mem_append] at h
    obtain h | h := h
    · exact ⟨c, List.mem_cons_self, _, _, h⟩
    · obtain ⟨e, he, hd⟩ := ih h
      exact ⟨e, List.mem_cons_of_mem c he, hd⟩

theorem isSmall_of_mem_lower (h : d ∈ lower s) : IsSmall d := by
  obtain ⟨c, -, front, back, hd⟩ := exists_of_mem_lowerFrom h
  exact isSmall_of_mem_lowerChar hd

theorem Tight.lower (h : Tight t) : Tight (lower t) := by
  constructor
  · intro d hd
    cases t with
    | nil => cases hd
    | cons c t =>
      rw [Text.lower, lowerFrom, List.head?_append_of_ne_nil _ (lowerChar_ne_nil _ _ _)] at hd
      refine Bool.eq_false_iff.2 fun hblank => ?_
      have hc := isBlank_of_mem_lowerChar (List.mem_of_mem_head? hd) hblank
      rw [h.front c rfl] at hc
      cases hc
  · intro d hd
    obtain rfl | ⟨t, c, rfl⟩ := List.eq_nil_or_concat t
    · cases hd
    · obtain ⟨u, hu⟩ := lowerFrom_append [] t [c]
      rw [List.concat_eq_append, Text.lower, hu, lowerFrom, lowerFrom, List.append_nil,
        List.getLast?_append_of_ne_nil _ (lowerChar_ne_nil _ _ _)] at hd
      refine Bool.eq_false_iff.2 fun hblank => ?_
      have hc := isBlank_of_mem_lowerChar (List.mem_of_getLast? hd) hblank
      rw [h.back c (by simp)] at hc
      cases hc

theorem lowerChar_subset (hc : c ∈ s) : ∃ front back, lowerChar front c back ⊆ lower s := by
  obtain ⟨a, b, rfl⟩ := List.append_of_mem hc
  obtain ⟨u, hu⟩ := lowerFrom_append [] a (c :: b)
  refine ⟨a.reverse ++ [], b, ?_⟩
  rw [lower, hu, lowerFrom]
  exact fun d hd => List.mem_append_right _ (List.mem_append_left _ hd)

theorem ascii_of_lower (h : ∀ d ∈ lower s, d.toNat < 128 ∧ d ≠ 'k') : ∀ c ∈ s, c.toNat < 128 := by
  intro c hc
  obtain ⟨front, back, hsub⟩ := lowerChar_subset hc
  have hplain : ∀ d ∈ lowerChar front c back, d.toNat < 128 ∧ d ≠ 'k' := fun d hd => h d (hsub hd)
  obtain ⟨-, hm⟩ | ⟨-, hm⟩ | ⟨-, hm⟩ := lowerChar_cases front c back
  · simp only [List.mem_cons, List.not_mem_nil, or_false] at hm
    obtain hm | hm := hm <;>
    · rw [hm] at hplain
      exact absurd (hplain _ (List.mem_singleton_self _)).1 (by decide)
  · rw [hm] at hplain
    exact absurd (hplain '\u0307' (by simp)).1 (by decide)
  · rw [hm, List.forall_mem_singleton] at hplain
    obtain ⟨-, hsame⟩ | ⟨s, hs, hhas, hshift⟩ := shifted_cases c
    · exact hsame ▸ hplain.1
    · have hbounds := Run.has_iff.1 hhas
      obtain rfl | rfl | ⟨-, himage⟩ := image_ascii s hs
      · dsimp only at hbounds
        omega
      · dsimp only at hbounds hshift
        refine absurd (eq_of_toNat ?_) hplain.2
        change _ = 107
        omega
      · omega

end CodeAudit.Text
