import CodeAudit.Proofs.Json.Excess
import CodeAudit.Proofs.Review.Extraction
import CodeAudit.Review.Model

/-!
What the objects of an answer are. Reading gives up at an integer of too many digits and at brackets
that lie too deep inside each other, so that an answer is lost exactly if one of the two is met before
any list that counts; any other answer gives a list or says what its form lacks.
-/
set_option autoImplicit false

namespace CodeAudit.Answer

variable {limit : Nat}

/-- Of all brackets of the text that decide anything the first meets this excess. -/
def ExcessFirst (limit : Nat) (s : List Char) (e : Json.Excess) : Prop :=
  ∃ p, ExcessAt limit s p e ∧
    ∀ q < p, (∀ e', ¬ExcessAt limit s q e') ∧ ∀ objects, ¬ListAt limit s q objects

theorem excessFirst_cons {c : Char} {s : List Char} {e : Json.Excess} :
    ExcessFirst limit (c :: s) e ↔ ExcessAt limit (c :: s) 0 e ∨
      ((∀ e', ¬ExcessAt limit (c :: s) 0 e') ∧ ∀ objects, ¬ListAt limit (c :: s) 0 objects) ∧
        ExcessFirst limit s e := by
  have hl (p : Nat) (e') : ExcessAt limit (c :: s) (p + 1) e' ↔ ExcessAt limit s p e' := by
    simp [ExcessAt]
  have ho (p : Nat) (objects) : ListAt limit (c :: s) (p + 1) objects ↔ ListAt limit s p objects := by
    simp [ListAt]
  constructor
  · rintro ⟨- | p, hp, hq⟩
    · exact .inl hp
    · refine .inr ⟨hq 0 (by omega), p, (hl p e).1 hp, fun q h => ?_⟩
      simpa only [hl, ho] using hq (q + 1) (by omega)
  · rintro (h | ⟨h, p, hp, hq⟩)
    · exact ⟨0, h, fun q hq => absurd hq (by omega)⟩
    · refine ⟨p + 1, (hl p e).2 hp, fun q hlt => ?_⟩
      cases q with
      | zero => exact h
      | succ q => simpa only [hl, ho] using hq q (by omega)

theorem search_eq_error_iff {s : List Char} {e : Json.Excess} :
    search limit s = .error e ↔ ExcessFirst limit s e := by
  induction s with
  | nil => simp [search, ExcessFirst, ExcessAt]
  | cons c s ih =>
    rw [search, excessFirst_cons]
    split
    · rename_i hc
      have hp : (c :: s)[0]? = some '[' := by simp [hc]
      have he (e') : ExcessAt limit (c :: s) 0 e' ↔ listAt limit (c :: s) = .error e' := by
        rw [ExcessAt, List.drop_zero, listAt_eq_error_iff]
        exact and_iff_right hp
      have hn : listAt limit (c :: s) = .ok none ↔ _ := listAt_eq_none_iff hp
      rw [← hn, he, ← ih]
      cases listAt limit (c :: s) with
      | error e' => simp
      | ok o => cases o <;> simp
    · rename_i hc
      have hb : (∀ e', ¬ExcessAt limit (c :: s) 0 e') ∧ ∀ objects, ¬ListAt limit (c :: s) 0 objects :=
        ⟨fun _ h => hc (by simpa using h.1), fun _ h => hc (by simpa using h.1)⟩
      simp [ih, hb]

theorem searchAll_eq_error_iff {ss : List (List Char)} {e : Json.Excess} :
    searchAll limit ss = .error e ↔ ∃ before t after, ss = before ++ t :: after ∧
      (∀ u ∈ before, Barren limit u) ∧ ExcessFirst limit t e := by
  induction ss with
  | nil => simp [searchAll]
  | cons s ss ih =>
    have hcons : (∃ before t after, s :: ss = before ++ t :: after ∧
        (∀ u ∈ before, Barren limit u) ∧ ExcessFirst limit t e) ↔
          ExcessFirst limit s e ∨ Barren limit s ∧ searchAll limit ss = .error e := by
      rw [ih]
      constructor
      · rintro ⟨- | ⟨u, before⟩, t, after, he, hb, ht⟩
        · obtain ⟨rfl, rfl⟩ := List.cons.inj he
          exact .inl ht
        · obtain ⟨rfl, rfl⟩ := List.cons.inj he
          obtain ⟨hu, hb⟩ := List.forall_mem_cons.1 hb
          exact .inr ⟨hu, before, t, after, rfl, hb, ht⟩
      · rintro (h | ⟨hs, before, t, after, rfl, hb, ht⟩)
        · exact ⟨[], s, ss, rfl, by simp, h⟩
        · exact ⟨s :: before, t, after, rfl, List.forall_mem_cons.2 ⟨hs, hb⟩, ht⟩
    rw [hcons, searchAll, ← search_eq_error_iff, ← search_eq_none_iff]
    cases search limit s with
    | error e' => simp
    | ok o => cases o <;> simp

/-- Searching the blocks of the answer and then the whole of it, this excess is met before any list
that counts. -/
def Excessive (limit : Nat) (s : List Char) (e : Json.Excess) : Prop :=
  ∃ before t after, candidates s = before ++ t :: after ∧ (∀ u ∈ before, Barren limit u) ∧
    ExcessFirst limit t e

theorem issues_eq_failure_iff {s : List Char} {e : Json.Excess} :
    issues limit s = .error e.failure ↔ Excessive limit s e := by
  rw [Excessive, ← searchAll_eq_error_iff, issues, ← candidates]
  cases searchAll limit (candidates s) with
  | error e' => simp [failure_injective.eq_iff]
  | ok o =>
    cases o with
    | none =>
      obtain ⟨h₁, h₂⟩ := failure_ne e
      by_cases hm : '[' ∈ s <;> simp [hm, h₁.symm, h₂.symm]
    | some objects => simp

theorem Excessive.run {s : List Char} (h : Excessive limit s .digits) : Json.Reader.LongRun s := by
  obtain ⟨before, t, after, hc, -, p, hp, -⟩ := h
  exact hp.run.mono (candidates_within (by simp [hc]))

theorem not_excessive_of_ok {s : List Char} {objects : List Fields} (h : issues limit s = .ok objects)
    (e : Json.Excess) : ¬Excessive limit s e := by
  intro he
  cases h.symm.trans (issues_eq_failure_iff.2 he)

/-- Any other answer gives the objects of a list that it holds, or says that it holds no bracket, or no
list that counts. -/
theorem issues_of_not_excessive {s : List Char} (h : ∀ e, ¬Excessive limit s e) :
    (∃ objects, issues limit s = .ok objects ∧ ∃ p, ListAt limit s p objects) ∨
    (issues limit s = .error noList ∧ '[' ∉ s) ∨
    (issues limit s = .error noGoodList ∧ '[' ∈ s ∧ ∀ p objects, ¬ListAt limit s p objects) := by
  obtain ⟨objects, he, -⟩ | ⟨e, he, -⟩ | ⟨he, hb⟩ := issues_cases limit s
  · exact .inl ⟨objects, he, issues_sound he⟩
  · exact absurd (issues_eq_failure_iff.1 he) (h e)
  · by_cases hm : '[' ∈ s
    · exact .inr (.inr ⟨by simp [he, hm], hm, fun p => (hb s (by simp [candidates]) p).2⟩)
    · exact .inr (.inl ⟨by simp [he, hm], hm⟩)

theorem excessive_of_oneLine {s : List Char} {e : Json.Excess} (hm : '\n' ∉ s)
    (h : ExcessAt limit s 0 e) : Excessive limit s e :=
  ⟨[], s, [], by rw [candidates, Fence.bodies_of_oneLine hm], by simp, 0, h, fun q hq => by omega⟩

def longList : String := String.ofList ('[' :: '1' :: List.replicate Json.maxDigits '1' ++ [']'])

theorem excessive_longList (hl : 0 < limit) : Excessive limit longList.toList .digits := by
  rw [longList, String.toList_ofList]
  have hm : '\n' ∉ '[' :: '1' :: List.replicate Json.maxDigits '1' ++ [']'] := by
    simp [-List.reduceReplicate]
  exact excessive_of_oneLine hm ⟨rfl, Json.readAt_ones hl (Nat.le_refl _)⟩

end CodeAudit.Answer
