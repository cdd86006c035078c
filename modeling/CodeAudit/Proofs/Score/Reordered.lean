import CodeAudit.Proofs.Finding.Merged
import CodeAudit.Proofs.Score.Defined
import Mathlib.Algebra.BigOperators.Group.List.Basic

set_option autoImplicit false

namespace CodeAudit

def Finding.Counted (f : Finding) : Prop :=
  ∀ name ∈ ["functionSize", "complexity"], ∀ v, f.metadata.get? name = some v → ∃ n : Nat, v = .ofNat n

theorem Finding.Measured.counted {f : Finding} (h : f.Measured) : f.Counted := by
  intro name hname v hv
  obtain ⟨n, -, hn⟩ := h name hname v hv
  exact ⟨n, hn⟩

def Findings.Averaged (fs : List Finding) : Prop :=
  ∀ name ∈ ["functionSize", "complexity"], ∃ i, Score.average (Score.measures name fs) = .ok i

namespace Findings
variable {fs gs : List Finding}

theorem countSeverity_perm (h : fs.Perm gs) (s : Severity) : countSeverity fs s = countSeverity gs s :=
  h.countP_eq _

theorem countCategory_perm (h : fs.Perm gs) (c : Category) : countCategory fs c = countCategory gs c :=
  h.countP_eq _

end Findings

namespace Score
variable {fs gs : List Finding} {vs ws : List Json}

theorem score_perm (w : Weights) (h : fs.Perm gs) : score w fs = score w gs := by
  simp only [score, penalty, Findings.countSeverity_perm h]

theorem categoryScore_perm (h : fs.Perm gs) (c : Category) : categoryScore fs c = categoryScore gs c :=
  score_perm _ (h.filter _)

theorem measures_perm (name : String) (h : fs.Perm gs) : (measures name fs).Perm (measures name gs) :=
  (h.filterMap _).filter _

theorem naturals_measures {name : String} (hname : name ∈ ["functionSize", "complexity"])
    (h : ∀ f ∈ fs, f.Counted) : Naturals (measures name fs) := by
  intro v hv
  obtain ⟨f, hf, hv⟩ := List.mem_filterMap.1 (List.mem_filter.1 hv).1
  exact h f hf name hname v hv

theorem average_perm (hperm : vs.Perm ws) (h : Naturals vs) : average vs = average ws := by
  have hws : Naturals ws := fun w hw => h w (hperm.mem_iff.2 hw)
  by_cases hne : vs = []
  · subst hne
    rw [hperm.nil_eq]
  · have hne' : ws ≠ [] := fun hnil => hne (hnil ▸ hperm).eq_nil
    rw [average_eq hne (foldlM_naturals h 0), average_eq hne' (foldlM_naturals hws 0), (hperm.map wholeOf).sum_eq,
      hperm.length_eq]

theorem dividedBy_whole_error {i : Int} {n : Nat} {e : Failure} (h : (Total.whole i).dividedBy n = .error e) :
    ∃ m, e = .overflow m := by
  rw [dividedBy_eq] at h
  dsimp only at h
  generalize Binary64.ofRatio (decide (i < 0)) i.natAbs n = x at h
  cases x with
  | nan => cases h
  | infinite neg => exact ⟨_, (Except.error.inj h).symm⟩
  | finite neg u => cases h

theorem dividedBy_whole_ne_nan {i : Int} {n : Nat} {x : Binary64} (h : (Total.whole i).dividedBy n = .ok x) :
    x ≠ .nan := by
  rw [dividedBy_eq] at h
  dsimp only [Binary64.ofRatio, Binary64.ofUnits] at h
  split at h
  · cases h
    exact nofun
  · cases h

theorem roundHalfUp_error {x : Binary64} {e : Failure} (hx : x ≠ .nan) (h : roundHalfUp x = .error e) :
    ∃ m, e = .overflow m := by
  rw [roundHalfUp] at h
  split at h
  · cases h
  · rw [if_neg hx] at h
    exact ⟨_, (Except.error.inj h).symm⟩

/-- The average of natural numbers can fail in one way only. -/
theorem average_naturals_error {e : Failure} (h : Naturals vs) (he : average vs = .error e) : ∃ m, e = .overflow m := by
  by_cases hne : vs = []
  · subst hne
    cases he
  · rw [average_eq hne (foldlM_naturals h 0)] at he
    generalize hx : (Total.whole _).dividedBy vs.length = d at he
    cases d with
    | error d =>
      cases he
      exact dividedBy_whole_error hx
    | ok x => exact roundHalfUp_error (dividedBy_whole_ne_nan hx) he

end Score

namespace Metrics
variable {fs gs : List Finding} {e : Failure}

theorem of_perm (hperm : fs.Perm gs) (h : ∀ f ∈ fs, f.Counted) : of fs = of gs := by
  have haverage {name : String} (hname : name ∈ ["functionSize", "complexity"]) :
      Score.average (Score.measures name fs) = Score.average (Score.measures name gs) :=
    Score.average_perm (Score.measures_perm name hperm) (Score.naturals_measures hname h)
  simp only [of, haverage (List.mem_cons_self), haverage (List.mem_cons_of_mem _ List.mem_cons_self),
    hperm.length_eq, Findings.countSeverity_perm hperm, Findings.countCategory_perm hperm]

theorem of_error (h : ∀ f ∈ fs, f.Counted) (he : of fs = .error e) : ∃ m, e = .overflow m := by
  have hoverflow {name : String} (hname : name ∈ ["functionSize", "complexity"])
      (he : Score.average (Score.measures name fs) = .error e) : ∃ m, e = .overflow m :=
    Score.average_naturals_error (Score.naturals_measures hname h) he
  unfold of at he
  cases hsize : Score.average (Score.measures "functionSize" fs) with
  | error d =>
    rw [hsize] at he
    cases he
    exact hoverflow (by decide) hsize
  | ok size =>
    cases hcomplexity : Score.average (Score.measures "complexity" fs) with
    | error d =>
      rw [hsize, hcomplexity] at he
      cases he
      exact hoverflow (by decide) hcomplexity
    | ok complexity =>
      rw [hsize, hcomplexity] at he
      cases he

theorem exists_of_iff : (∃ m, of fs = .ok m) ↔ Findings.Averaged fs := by
  unfold Findings.Averaged of
  simp only [List.forall_mem_cons, List.not_mem_nil, false_imp_iff, implies_true, and_true]
  cases Score.average (Score.measures "functionSize" fs) <;>
    cases Score.average (Score.measures "complexity" fs) <;> simp [bind, Except.bind, pure, Except.pure]

theorem averaged_of_measured (h : ∀ f ∈ fs, f.Measured) : Findings.Averaged fs := exists_of_iff.1 (of_defined h)

end Metrics

namespace Report
variable {fs gs : List Finding} {a : Option Assessment} {r : Report} {e : Failure}

/-- What a report says of findings and an assessment. -/
structure Scores (fs : List Finding) (a : Option Assessment) (r : Report) : Prop where
  rules : r.rules = Score.ruleScore (fs.filter (·.source == .rules))
  model : r.model = Score.modelScore (fs.filter (·.source == .model))
  architecture : r.architecture = Score.architectureScore a
  overall : Score.overall (.ofNat r.rules) (.ofNat r.model) (.ofNat r.architecture) = .ok r.overall
  categories : r.categories = Score.scoredCategories.map fun c => (c, Score.categoryScore fs c)
  metrics : Metrics.of fs = .ok r.metrics

/-- The composite never fails, so that a report is made as soon as its metrics are. -/
theorem of_eq (fs : List Finding) (a : Option Assessment) : ∃ overall : Nat,
    Score.overall (.ofNat (Score.ruleScore (fs.filter (·.source == .rules))))
      (.ofNat (Score.modelScore (fs.filter (·.source == .model)))) (.ofNat (Score.architectureScore a)) = .ok overall ∧
    of fs a = (Metrics.of fs).map fun m => {
      overall
      categories := Score.scoredCategories.map fun c => (c, Score.categoryScore fs c)
      rules := Score.ruleScore (fs.filter (·.source == .rules))
      model := Score.modelScore (fs.filter (·.source == .model))
      architecture := Score.architectureScore a
      metrics := m } := by
  obtain ⟨n, hn⟩ := Score.overall_defined (Score.score_lt Score.ruleWeights (fs.filter (·.source == .rules)))
    (Score.score_lt Score.modelWeights (fs.filter (·.source == .model))) (Score.architectureScore_lt a)
  refine ⟨n, hn, ?_⟩
  unfold of
  simp only [Score.ruleScore, Score.modelScore, hn]
  cases Metrics.of fs <;> rfl

theorem exists_of_iff : (∃ r, of fs a = .ok r) ↔ Findings.Averaged fs := by
  obtain ⟨n, -, hn⟩ := of_eq fs a
  rw [← Metrics.exists_of_iff, hn]
  cases Metrics.of fs <;> simp [Except.map]

theorem of_ok (h : of fs a = .ok r) : Scores fs a r := by
  obtain ⟨n, hoverall, hn⟩ := of_eq fs a
  rw [hn] at h
  cases hm : Metrics.of fs with
  | error e =>
    rw [hm] at h
    cases h
  | ok m =>
    rw [hm] at h
    cases h
    exact ⟨rfl, rfl, rfl, hoverall, rfl, hm⟩

theorem of_perm (hperm : fs.Perm gs) (h : ∀ f ∈ fs, f.Counted) (a : Option Assessment) : of fs a = of gs a := by
  simp only [of, Score.ruleScore, Score.modelScore, Score.score_perm _ (hperm.filter _),
    Score.categoryScore_perm hperm, Metrics.of_perm hperm h]

theorem of_error (h : ∀ f ∈ fs, f.Counted) (he : of fs a = .error e) : ∃ m, e = .overflow m := by
  obtain ⟨n, -, hn⟩ := of_eq fs a
  rw [hn] at he
  cases hm : Metrics.of fs with
  | error d =>
    rw [hm] at he
    cases he
    exact Metrics.of_error h hm
  | ok m =>
    rw [hm] at he
    cases he

/-- Where the measures are natural numbers, a report is the same for every order of the findings, and so is the failure
to make one, which is an overflow. The scores of the two sources in a report on merged findings are those of the
findings before they were merged; there is a report as soon as both averages have a value, which measures that are not
vast have. -/
theorem of_unordered (a : Option Assessment) :
    (∀ fs gs : List Finding, fs.Perm gs → (∀ f ∈ fs, f.Counted) →
      of fs a = of gs a ∧ ∀ e, of fs a = .error e → ∃ m, e = .overflow m) ∧
    ∀ rules model : List Finding, (∀ f ∈ rules, f.source = .rules) → (∀ f ∈ model, f.source = .model) →
      ((∃ r, of (Findings.merge rules model) a = .ok r) ↔ Findings.Averaged (Findings.merge rules model)) ∧
      ((∀ f ∈ Findings.merge rules model, f.Measured) → Findings.Averaged (Findings.merge rules model)) ∧
      ∀ r, of (Findings.merge rules model) a = .ok r →
        r.rules = Score.ruleScore rules ∧ r.model = Score.modelScore model := by
  refine ⟨fun fs gs hperm h => ⟨of_perm hperm h a, fun e he => of_error h he⟩, ?_⟩
  intro rules model hrules hmodel
  refine ⟨exists_of_iff, Metrics.averaged_of_measured, fun r hr => ?_⟩
  rw [(of_ok hr).rules, (of_ok hr).model]
  exact ⟨Score.score_perm _ (Findings.filter_merge hrules hmodel .rules),
    Score.score_perm _ (Findings.filter_merge hrules hmodel .model)⟩

/-- A long function and a grave complaint of the model, which is presented first. -/
theorem of_unordered_two :
    let long : Finding := ⟨.maintainability, .medium, "t", "d", "a.ts", .single 1 (by decide), none, none, .rules,
      some "function-size", [("functionSize", .ofNat 60)]⟩
    let leak : Finding := ⟨.security, .high, "t", "d", "b.ts", .single 1 (by decide), none, none, .model, none,
      [("complexity", .ofNat 12)]⟩
    of [long, leak] none = of [leak, long] none ∧
      ∃ r, of (Findings.merge [long] [leak]) none = .ok r ∧ r.rules = 95 ∧ r.model = 88 := by
  intro long leak
  have hmeasured : ∀ f ∈ [long, leak], f.Measured := by
    have hvast : 2 ^ 7 < vast := by decide +kernel
    have hsize : ∃ n < vast, Json.ofNat 60 = .ofNat n := ⟨60, by omega, rfl⟩
    have hcomplexity : ∃ n < vast, Json.ofNat 12 = .ofNat n := ⟨12, by omega, rfl⟩
    simpa [Finding.Measured, long, leak, Fields.get?] using ⟨hsize, hcomplexity⟩
  obtain ⟨hsame, hsplit⟩ := of_unordered none
  obtain ⟨hmade, haveraged, hscores⟩ := hsplit [long] [leak] (by simp [long]) (by simp [leak])
  have hmerged := Findings.merge_perm [long] [leak]
  obtain ⟨r, hr⟩ := hmade.2 (haveraged fun f hf => hmeasured f (hmerged.mem_iff.1 hf))
  obtain ⟨hrules, hmodel⟩ := hscores r hr
  exact ⟨(hsame _ _ (.swap leak long []) fun f hf => (hmeasured f hf).counted).1, r, hr, hrules.trans (by decide),
    hmodel.trans (by decide)⟩

end Report
end CodeAudit
