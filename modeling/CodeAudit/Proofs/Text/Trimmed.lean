import CodeAudit.Text.Blank
import Mathlib.Data.List.DropRight

set_option autoImplicit false

namespace CodeAudit.Text
variable {s t a b : List Char}

def Blank (s : List Char) : Prop := ∀ c ∈ s, isBlank c

/-- Neither the first nor the last character is blank. -/
structure Tight (t : List Char) : Prop where
  front : ∀ c ∈ t.head?, isBlank c = false
  back : ∀ c ∈ t.getLast?, isBlank c = false

theorem Tight.reverse (h : Tight t) : Tight t.reverse := ⟨by simpa using h.back, by simpa using h.front⟩

theorem Tight.dropWhile (h : Tight t) : t.dropWhile isBlank = t := by
  cases t with
  | nil => rfl
  | cons c t => exact List.dropWhile_cons_of_neg (by simp [h.front c rfl])

theorem Tight.dropTail_append (h : Tight t) (hb : Blank b) : dropTail isBlank (t ++ b) = t := by
  have hrev : ∀ c ∈ b.reverse, isBlank c := fun c hc => hb c (List.mem_reverse.1 hc)
  rw [dropTail, List.reverse_append, List.dropWhile_append_of_pos hrev, h.reverse.dropWhile, List.reverse_reverse]

theorem Tight.strip_append (h : Tight t) (ha : Blank a) (hb : Blank b) : strip (a ++ (t ++ b)) = t := by
  rw [strip, trimBy, List.dropWhile_append_of_pos ha]
  cases t with
  | nil => rw [List.nil_append, List.dropWhile_eq_nil_iff.2 hb]; rfl
  | cons c t =>
    have hc : ¬isBlank c := by simp [h.front c rfl]
    rw [List.cons_append, List.dropWhile_cons_of_neg hc]
    exact h.dropTail_append hb

theorem tight_strip (s : List Char) : Tight (strip s) := by
  constructor
  · intro c hc
    obtain ⟨r, hr⟩ : strip s <+: s.dropWhile isBlank := List.rdropWhile_prefix _ _
    have hhead : (s.dropWhile isBlank).head? = some c := by
      rw [← hr, List.head?_append, Option.mem_def.1 hc, Option.some_or]
    have hnot := List.head?_dropWhile_not isBlank s
    rwa [hhead] at hnot
  · intro c hc
    have hne : strip s ≠ [] := by
      intro hnil
      rw [hnil] at hc
      cases hc
    rw [List.getLast?_eq_some_getLast hne] at hc
    cases hc
    exact Bool.eq_false_iff.2 (List.rdropWhile_last_not isBlank (s.dropWhile isBlank) hne)

theorem Tight.map {f : Char → Char} (hf : ∀ c, isBlank (f c) → isBlank c) (h : Tight t) : Tight (t.map f) := by
  constructor
  · intro d hd
    rw [List.head?_map] at hd
    obtain ⟨c, hc, rfl⟩ := Option.map_eq_some_iff.1 hd
    exact Bool.eq_false_iff.2 fun hblank => Bool.eq_false_iff.1 (h.front c hc) (hf c hblank)
  · intro d hd
    rw [List.getLast?_map] at hd
    obtain ⟨c, hc, rfl⟩ := Option.map_eq_some_iff.1 hd
    exact Bool.eq_false_iff.2 fun hblank => Bool.eq_false_iff.1 (h.back c hc) (hf c hblank)

theorem strip_eq_iff : strip s = t ↔ Tight t ∧ ∃ a b, s = a ++ (t ++ b) ∧ Blank a ∧ Blank b := by
  constructor
  · rintro rfl
    have htail : strip s ++ (s.dropWhile isBlank).rtakeWhile isBlank = s.dropWhile isBlank :=
      List.rdropWhile_append_rtakeWhile
    refine ⟨tight_strip s, s.takeWhile isBlank, (s.dropWhile isBlank).rtakeWhile isBlank, ?_, ?_, ?_⟩
    · rw [htail, List.takeWhile_append_dropWhile]
    · exact fun c hc => List.mem_takeWhile_imp hc
    · exact fun c hc => List.mem_rtakeWhile_imp hc
  · rintro ⟨h, a, b, rfl, ha, hb⟩
    exact h.strip_append ha hb

theorem Tight.strip (h : Tight t) : strip t = t := strip_eq_iff.2 ⟨h, [], [], by simp, nofun, nofun⟩

theorem strip_eq_nil_iff : strip s = [] ↔ Blank s := by
  rw [strip_eq_iff]
  constructor
  · rintro ⟨-, a, b, rfl, ha, hb⟩ c hc
    rw [List.nil_append, List.mem_append] at hc
    exact hc.elim (ha c) (hb c)
  · intro h
    exact ⟨⟨nofun, nofun⟩, s, [], by simp, h, nofun⟩

end CodeAudit.Text
