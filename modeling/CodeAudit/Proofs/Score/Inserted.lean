import CodeAudit.Proofs.Number.Monotone
import CodeAudit.Proofs.Score.Reordered

/-!
Scores of more findings. Every finding costs points or none, and the composite keeps the order of what it is made of
through all its roundings; so no finding makes a score better.
-/
set_option autoImplicit false

namespace CodeAudit

namespace Findings
variable {fs new gs : List Finding}

/-- The third list is the first with the findings of the second put in at any places, in their order. -/
inductive Inserted : List Finding → List Finding → List Finding → Prop where
  | nil : Inserted [] [] []
  | keep {fs new gs : List Finding} (f : Finding) : Inserted fs new gs → Inserted (f :: fs) new (f :: gs)
  | put {fs new gs : List Finding} (f : Finding) : Inserted fs new gs → Inserted fs (f :: new) (f :: gs)

theorem Inserted.sublist (h : Inserted fs new gs) : fs.Sublist gs := by
  induction h with
  | nil => exact .slnil
  | keep f _ ih => exact .cons_cons f ih
  | put f _ ih => exact .cons f ih

theorem Inserted.filter (h : Inserted fs new gs) {kind : Finding → Bool} (hnew : ∀ f ∈ new, kind f = false) :
    gs.filter kind = fs.filter kind := by
  induction h with
  | nil => rfl
  | keep f _ ih => rw [List.filter_cons, List.filter_cons, ih hnew]
  | put f _ ih =>
    rw [List.filter_cons, hnew f List.mem_cons_self]
    exact ih fun g hg => hnew g (List.mem_cons_of_mem f hg)

end Findings

namespace Score
open Binary64
variable {fs gs : List Finding}

theorem penalty_mono (w : Weights) (h : fs.Sublist gs) : penalty w fs ≤ penalty w gs := by
  have hcount (s : Severity) : Findings.countSeverity fs s ≤ Findings.countSeverity gs s := h.countP_le
  have hhigh := Nat.mul_le_mul_left w.high (hcount .high)
  have hmedium := Nat.mul_le_mul_left w.medium (hcount .medium)
  have hlow := Nat.mul_le_mul_left w.low (hcount .low)
  unfold penalty
  omega

theorem score_mono (w : Weights) (h : fs.Sublist gs) : score w gs ≤ score w fs :=
  Nat.sub_le_sub_left (penalty_mono w h) 100

theorem score_le (w : Weights) (fs : List Finding) : score w fs ≤ 100 := Nat.sub_le 100 _

theorem roundHalfUp_mono {x y : Binary64} {j : Int} (h : AtMost x y) (hj : roundHalfUp y = .ok j) :
    ∃ i ≤ j, roundHalfUp x = .ok i := by
  have hhalf : AtMost half half := .finite le_rfl
  cases hy : (y.add half).floor? with
  | none => simp [roundHalfUp, hy] at hj
  | some k =>
    obtain rfl : k = j := by simpa [roundHalfUp, hy] using hj
    obtain ⟨i, hi, hle⟩ := (h.add hhalf).floor hy
    exact ⟨i, hle, by rw [roundHalfUp, hi]⟩

theorem weights_ne_zero : roundUnits (4 * one) 10 ≠ 0 ∧ roundUnits (2 * one) 10 ≠ 0 := by decide +kernel

theorem composite_mono {x y x' y' z z' : Binary64} (hx : AtMost x x') (hy : AtMost y y') (hz : AtMost z z') :
    AtMost (composite x y z) (composite x' y' z') := by
  unfold composite
  rw [twoFifths_eq, oneFifth_eq]
  exact ((hx.mul weights_ne_zero.1).add (hy.mul weights_ne_zero.1)).add (hz.mul weights_ne_zero.2)

theorem overall_mono {x y z x' y' z' : Binary64} {n n' : Nat} (hx : AtMost x x') (hy : AtMost y y') (hz : AtMost z z')
    (hn : overall x y z = .ok n) (hn' : overall x' y' z' = .ok n') : n ≤ n' := by
  have hcomposite := composite_mono hx hy hz
  unfold overall at hn hn'
  cases hj : roundHalfUp (composite x' y' z') with
  | error e => simp [hj, Except.map] at hn'
  | ok j =>
    obtain ⟨i, hle, hi⟩ := roundHalfUp_mono hcomposite hj
    simp only [hi, hj, Except.map, Except.ok.injEq, clamp] at hn hn'
    omega

theorem overall_le {x y z : Binary64} {n : Nat} (h : overall x y z = .ok n) : n ≤ 100 := by
  unfold overall at h
  cases hi : roundHalfUp (composite x y z) with
  | error e => simp [hi, Except.map] at h
  | ok i =>
    simp only [hi, Except.map, Except.ok.injEq, clamp] at h
    omega

end Score

namespace Report
variable {fs new gs : List Finding} {a : Option Assessment} {r r' : Report}

/-- Every score lies between 0 and 100, and every category that has a score of its own is there. -/
structure Bounded (r : Report) : Prop where
  rules : r.rules ≤ 100
  model : r.model ≤ 100
  overall : r.overall ≤ 100
  categories : r.categories.map Prod.fst = Score.scoredCategories
  category : ∀ p ∈ r.categories, p.2 ≤ 100

/-- With these findings more, no score is better, and that of a category is the same if none of them is of it. -/
structure NoBetter (new : List Finding) (r' r : Report) : Prop where
  rules : r'.rules ≤ r.rules
  model : r'.model ≤ r.model
  overall : r'.overall ≤ r.overall
  category : ∀ c ∈ Score.scoredCategories, ∃ n n', r.categories.lookup c = some n ∧
    r'.categories.lookup c = some n' ∧ n' ≤ n ∧ ((∀ f ∈ new, f.category ≠ c) → n' = n)

theorem Scores.bounded (h : Scores fs a r) : Bounded r where
  rules := h.rules ▸ Score.score_le _ _
  model := h.model ▸ Score.score_le _ _
  overall := Score.overall_le h.overall
  categories := by rw [h.categories, List.map_map, Function.comp_def, List.map_id']
  category := by
    intro p hp
    rw [h.categories] at hp
    obtain ⟨c, -, rfl⟩ := List.mem_map.1 hp
    exact Score.score_le _ _

theorem lookup_map (score : Category → Nat) {c : Category} {cs : List Category} (hc : c ∈ cs) :
    (cs.map fun d => (d, score d)).lookup c = some (score c) := by
  induction cs with
  | nil => cases hc
  | cons d cs ih =>
    rw [List.map_cons, List.lookup_cons]
    by_cases hcd : c = d
    · simp [hcd]
    · rw [beq_eq_false_iff_ne.2 hcd]
      exact ih ((List.mem_cons.1 hc).resolve_left hcd)

theorem Scores.lookup (h : Scores fs a r) {c : Category} (hc : c ∈ Score.scoredCategories) :
    r.categories.lookup c = some (Score.categoryScore fs c) := by
  rw [h.categories, lookup_map _ hc]

theorem Scores.noBetter (h : Scores fs a r) (h' : Scores gs a r') (hput : Findings.Inserted fs new gs) :
    NoBetter new r' r := by
  have hsub (kind : Finding → Bool) : (fs.filter kind).Sublist (gs.filter kind) := hput.sublist.filter kind
  have hrules : r'.rules ≤ r.rules := by
    rw [h.rules, h'.rules]
    exact Score.score_mono _ (hsub _)
  have hmodel : r'.model ≤ r.model := by
    rw [h.model, h'.model]
    exact Score.score_mono _ (hsub _)
  have harchitecture : r'.architecture ≤ r.architecture := by rw [h.architecture, h'.architecture]
  refine ⟨hrules, hmodel, ?_, fun c hc => ?_⟩
  · exact Score.overall_mono (.ofNat hrules) (.ofNat hmodel) (.ofNat harchitecture) h'.overall h.overall
  · refine ⟨_, _, h.lookup hc, h'.lookup hc, Score.score_mono _ (hsub _), fun hnew => ?_⟩
    rw [Score.categoryScore, Score.categoryScore, hput.filter fun f hf => beq_eq_false_iff_ne.2 (hnew f hf)]

/-- Where findings are put in among others, wherever that is, no score of a report becomes better, whatever is known of
the architecture. All scores lie between 0 and 100. There is a report as soon as both averages have a value, which
measures that are not vast have. -/
theorem of_inserted (hput : Findings.Inserted fs new gs) (a : Option Assessment) :
    ((∃ r, of fs a = .ok r) ↔ Findings.Averaged fs) ∧ ((∃ r, of gs a = .ok r) ↔ Findings.Averaged gs) ∧
    ((∀ f ∈ gs, f.Measured) → Findings.Averaged fs ∧ Findings.Averaged gs) ∧
    ∀ r r', of fs a = .ok r → of gs a = .ok r' → NoBetter new r' r ∧ Bounded r ∧ Bounded r' := by
  refine ⟨exists_of_iff, exists_of_iff, fun h => ?_, fun r r' hr hr' => ?_⟩
  · exact ⟨Metrics.averaged_of_measured fun f hf => h f (hput.sublist.subset hf), Metrics.averaged_of_measured h⟩
  · exact ⟨(of_ok hr).noBetter (of_ok hr') hput, (of_ok hr).bounded, (of_ok hr').bounded⟩

/-- A leak put in front of a long function costs points with the rules and with security, but none with the others. -/
theorem of_inserted_leak :
    let long : Finding := ⟨.maintainability, .medium, "t", "d", "a.ts", .single 1 (by decide), none, none, .rules,
      none, []⟩
    let leak : Finding := ⟨.security, .high, "t", "d", "b.ts", .single 1 (by decide), none, none, .rules, none, []⟩
    ∃ r r', of [long] none = .ok r ∧ of [leak, long] none = .ok r' ∧ r'.overall ≤ r.overall ∧
      r'.categories.lookup .readability = r.categories.lookup .readability := by
  intro long leak
  obtain ⟨hmade, hmade', haveraged, hscores⟩ :=
    of_inserted (.put leak (.keep long .nil)) none
  obtain ⟨hshort, hmore⟩ := haveraged (by simp [long, leak, Finding.Measured, Fields.get?])
  obtain ⟨r, hr⟩ := hmade.2 hshort
  obtain ⟨r', hr'⟩ := hmade'.2 hmore
  obtain ⟨hnoBetter, -, -⟩ := hscores r r' hr hr'
  obtain ⟨n, n', hn, hn', -, hsame⟩ := hnoBetter.category .readability (by decide)
  exact ⟨r, r', hr, hr', hnoBetter.overall, by rw [hn, hn', hsame (by simp [leak])]⟩

end Report
end CodeAudit
