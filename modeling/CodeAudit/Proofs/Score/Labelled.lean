import CodeAudit.Proofs.Architecture.Checked
import CodeAudit.Proofs.Text.Lowered
import CodeAudit.Score.Basic

/-!
The score of a label of quality. A label in its normal form stays as it is, so that it does not matter whether it was
brought into it before; and which texts have the normal form of one of the labels that count can be said by their
letters.
-/
set_option autoImplicit false

namespace CodeAudit

namespace Insights
open Text
variable {label q : String} {t : List Char} {c d : Char}

def hyphened (c : Char) : Char := if c = '_' ∨ c = ' ' then '-' else c

theorem toList_normalLabel (q : String) : (normalLabel q).toList = (lower (strip q.toList)).map hyphened := by
  rw [normalLabel, String.toList_ofList, substitute, substitute, List.map_map]
  refine List.map_congr_left fun c _ => ?_
  by_cases hline : c = '_'
  · simp [hyphened, hline]
  · simp [hyphened, hline]

theorem isBlank_of_hyphened (h : isBlank (hyphened c)) : isBlank c := by
  unfold hyphened at h
  split at h
  · cases h
  · exact h

theorem ascii_of_hyphened (h : (hyphened c).toNat < 128 ∧ hyphened c ≠ 'k') : c.toNat < 128 ∧ c ≠ 'k' := by
  unfold hyphened at h
  split at h
  · rename_i hc
    obtain rfl | rfl := hc <;> decide
  · exact h

theorem isSmall_hyphened (h : IsSmall c) : IsSmall (hyphened c) := by
  unfold hyphened
  split
  · exact ⟨by decide +kernel, by decide⟩
  · exact h

theorem hyphened_hyphened (c : Char) : hyphened (hyphened c) = hyphened c := by
  by_cases hc : c = '_' ∨ c = ' '
  · simp [hyphened, hc]
  · simp [hyphened, hc]

theorem normalLabel_normalLabel (q : String) : normalLabel (normalLabel q) = normalLabel q := by
  refine String.toList_inj.1 ?_
  have hsmall : ∀ d ∈ (lower (strip q.toList)).map hyphened, IsSmall d := by
    intro d hd
    obtain ⟨c, hc, rfl⟩ := List.mem_map.1 hd
    exact isSmall_hyphened (isSmall_of_mem_lower hc)
  have htight : Tight ((lower (strip q.toList)).map hyphened) :=
    (tight_strip q.toList).lower.map fun _ => isBlank_of_hyphened
  rw [toList_normalLabel, toList_normalLabel, htight.strip, lower, lowerFrom_of_small hsmall, List.map_map]
  exact List.map_congr_left fun c _ => hyphened_hyphened c

def plain (c : Char) : Char := hyphened c.toLower

/-- The text is the label, but for the case of its letters, what stands between its words, and blanks around it. -/
def Spells (label q : String) : Prop :=
  ∃ a t b, q.toList = a ++ (t ++ b) ∧ Blank a ∧ Blank b ∧ t.map plain = label.toList

structure IsLabel (label : String) : Prop where
  chars : ∀ c ∈ label.toList, c.toNat < 128 ∧ c ≠ 'k'
  front : ∀ c ∈ label.toList.head?, c ≠ '-' ∧ isBlank c = false
  back : ∀ c ∈ label.toList.getLast?, c ≠ '-' ∧ isBlank c = false

theorem plain_of_isBlank (h : isBlank c) : plain c = '-' ∨ isBlank (plain c) := by
  have hsame : c.toLower = c := by
    refine eq_of_toNat ?_
    rw [toNat_toLower, if_neg]
    simp only [isBlank, Bool.or_eq_true, Bool.and_eq_true, decide_eq_true_eq, beq_iff_eq] at h
    omega
  rw [plain, hsame, hyphened]
  split
  · exact .inl rfl
  · exact .inr h

theorem not_isBlank_of_plain (h : plain c ≠ '-' ∧ isBlank (plain c) = false) : isBlank c = false :=
  Bool.eq_false_iff.2 fun hc => (plain_of_isBlank hc).elim h.1 (Bool.eq_false_iff.1 h.2)

theorem IsLabel.tight (h : IsLabel label) (ht : t.map plain = label.toList) : Tight t := by
  constructor
  · intro c hc
    have hhead : label.toList.head? = some (plain c) := by
      rw [← ht, List.head?_map, Option.mem_def.1 hc, Option.map_some]
    exact not_isBlank_of_plain (h.front _ hhead)
  · intro c hc
    have hlast : label.toList.getLast? = some (plain c) := by
      rw [← ht, List.getLast?_map, Option.mem_def.1 hc, Option.map_some]
    exact not_isBlank_of_plain (h.back _ hlast)

theorem map_lower (h : ∀ c ∈ t, c.toNat < 128) : (lower t).map hyphened = t.map plain := by
  have hlower := lowerFrom_of_lt h [] []
  rw [List.append_nil, lowerFrom, List.append_nil] at hlower
  rw [lower, hlower, List.map_map]
  rfl

theorem normalLabel_eq_iff (h : IsLabel label) : normalLabel q = label ↔ Spells label q := by
  rw [← String.toList_inj, toList_normalLabel]
  constructor
  · intro heq
    obtain ⟨-, a, b, hq, ha, hb⟩ := strip_eq_iff.1 (rfl : strip q.toList = strip q.toList)
    have hascii : ∀ c ∈ strip q.toList, c.toNat < 128 := by
      refine ascii_of_lower fun d hd => ?_
      exact ascii_of_hyphened (h.chars (hyphened d) (heq ▸ List.mem_map_of_mem hd))
    exact ⟨a, strip q.toList, b, hq, ha, hb, by rw [← map_lower hascii, heq]⟩
  · rintro ⟨a, t, b, hq, ha, hb, ht⟩
    have hascii : ∀ c ∈ t, c.toNat < 128 := by
      intro c hc
      exact toNat_lt_of_toLower (ascii_of_hyphened (h.chars (plain c) (ht ▸ List.mem_map_of_mem hc))).1
    rw [strip_eq_iff.2 ⟨h.tight ht, a, b, hq, ha, hb⟩, map_lower hascii, ht]

end Insights

namespace Score
open Insights (normalLabel Spells IsLabel)

def bands : List (String × Nat) := [("excellent", 95), ("good", 80), ("needs-improvement", 60), ("poor", 40)]

theorem isLabel_bands : ∀ p ∈ bands, IsLabel p.1 := by
  have hall : ∀ p ∈ bands, (p.1.toList.all fun c => c.toNat < 128 ∧ c ≠ 'k') ∧
      (p.1.toList.head?.all fun c => c ≠ '-' ∧ Text.isBlank c = false) ∧
      p.1.toList.getLast?.all fun c => c ≠ '-' ∧ Text.isBlank c = false := by
    decide +kernel
  intro p hp
  obtain ⟨hchars, hfront, hback⟩ := hall p hp
  exact ⟨fun c hc => of_decide_eq_true (List.all_eq_true.1 hchars c hc),
    fun c hc => of_decide_eq_true ((Option.all_eq_true _ _).1 hfront c hc),
    fun c hc => of_decide_eq_true ((Option.all_eq_true _ _).1 hback c hc)⟩

theorem ofLabel_cases (q : String) : (∃ p ∈ bands, normalLabel q = p.1 ∧ ofLabel q = p.2) ∨
    (∀ p ∈ bands, normalLabel q ≠ p.1) ∧ ofLabel q = 75 := by
  unfold ofLabel
  split
  · rename_i h
    exact .inl ⟨("excellent", 95), by decide, h, rfl⟩
  · rename_i h
    exact .inl ⟨("good", 80), by decide, h, rfl⟩
  · rename_i h
    exact .inl ⟨("needs-improvement", 60), by decide, h, rfl⟩
  · rename_i h
    exact .inl ⟨("poor", 40), by decide, h, rfl⟩
  · rename_i hexcellent hgood himprove hpoor
    exact .inr ⟨by simpa [bands] using ⟨hexcellent, hgood, himprove, hpoor⟩, rfl⟩

theorem ofLabel_eq_iff {p : String × Nat} (hp : p ∈ bands) (q : String) : ofLabel q = p.2 ↔ normalLabel q = p.1 := by
  have hdistinct : ∀ p ∈ bands, p.2 ≠ 75 ∧ ∀ p' ∈ bands, p'.1 = p.1 ∨ p'.2 = p.2 → p' = p := by decide +kernel
  obtain ⟨hneutral, hsame⟩ := hdistinct p hp
  obtain ⟨p', hp', hlabel, hscore⟩ | ⟨hnone, hscore⟩ := ofLabel_cases q
  · rw [hlabel, hscore]
    exact ⟨fun h => by rw [hsame p' hp' (.inr h)], fun h => by rw [hsame p' hp' (.inl h)]⟩
  · rw [hscore]
    exact ⟨fun h => absurd h.symm hneutral, fun h => absurd h (hnone p hp)⟩

/-- A label scores the same as a text and as the quality that insights are made with, since its normal form is its own.
It scores what its normal form is worth, and 75 if that is none of the four that count, as for a blank label; and which
texts have one of the four as their normal form can be told from their letters. -/
theorem architectureScore_label (q : String) :
    (∃ i, Schema.insights (.object [("quality", .text q)]) = .ok i ∧
      architectureScore (some (.insights i)) = architectureScore (some (.label q))) ∧
    normalLabel (normalLabel q) = normalLabel q ∧
    (∀ p ∈ bands, (architectureScore (some (.label q)) = p.2 ↔ normalLabel q = p.1) ∧
      (normalLabel q = p.1 ↔ Spells p.1 q)) ∧
    ((∀ p ∈ bands, normalLabel q ≠ p.1) → architectureScore (some (.label q)) = 75) ∧
    (Text.Blank q.toList → architectureScore (some (.label q)) = 75) := by
  have hnone (h : ∀ p ∈ bands, normalLabel q ≠ p.1) : ofLabel q = 75 := by
    obtain ⟨p, hp, hlabel, -⟩ | ⟨-, hscore⟩ := ofLabel_cases q
    · exact absurd hlabel (h p hp)
    · exact hscore
  refine ⟨?_, Insights.normalLabel_normalLabel q, fun p hp => ?_, hnone, fun hblank => hnone fun p hp hlabel => ?_⟩
  · refine ⟨_, Schema.insights_object _, ?_⟩
    change ofLabel (normalLabel q) = ofLabel q
    unfold ofLabel
    rw [Insights.normalLabel_normalLabel]
  · exact ⟨ofLabel_eq_iff hp q, Insights.normalLabel_eq_iff (isLabel_bands p hp)⟩
  · have hempty : normalLabel q = "" := by
      rw [← String.toList_inj, Insights.toList_normalLabel, Text.strip_eq_nil_iff.2 hblank]
      rfl
    rw [hempty] at hlabel
    have hworded : ∀ p ∈ bands, "" ≠ p.1 := by decide
    exact hworded p hp hlabel

/-- Two words with a line between them. -/
theorem architectureScore_label_lined :
    architectureScore (some (.label " Needs_IMPROVEMENT\n")) = 60 ∧ architectureScore (some (.label "\t")) = 75 := by
  obtain ⟨-, -, hbands, -, -⟩ := architectureScore_label " Needs_IMPROVEMENT\n"
  obtain ⟨hscore, hspells⟩ := hbands ("needs-improvement", 60) (by decide)
  refine ⟨hscore.2 (hspells.2 ⟨[' '], "Needs_IMPROVEMENT".toList, ['\n'], by decide, ?_, ?_, by decide⟩), ?_⟩
  · simp [Text.Blank]
    decide
  · simp [Text.Blank]
    decide
  · obtain ⟨-, -, -, -, hblank⟩ := architectureScore_label "\t"
    refine hblank ?_
    simp [Text.Blank]
    decide

end Score
end CodeAudit
