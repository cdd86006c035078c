import CodeAudit.Proofs.Score.Reordered

set_option autoImplicit false

namespace CodeAudit

namespace Findings
variable {rules model : List Finding}

theorem sum_countSeverity (fs : List Finding) :
    countSeverity fs .high + countSeverity fs .medium + countSeverity fs .low = fs.length := by
  induction fs with
  | nil => rfl
  | cons f fs ih =>
    simp only [countSeverity, List.countP_cons, List.length_cons] at ih ⊢
    cases f.severity <;> simp <;> omega

theorem sum_countCategory (fs : List Finding) : (Category.all.map (countCategory fs)).sum = fs.length := by
  induction fs with
  | nil => rfl
  | cons f fs ih =>
    simp only [Category.all, List.map_cons, List.map_nil, List.sum_cons, List.sum_nil, countCategory,
      List.countP_cons, List.length_cons] at ih ⊢
    cases f.category <;> simp <;> omega

theorem countP_source (hrules : ∀ f ∈ rules, f.source = .rules) (hmodel : ∀ f ∈ model, f.source = .model) (s : Source) :
    (merge rules model).countP (·.source == s) = (match s with | .rules => rules | .model => model).length := by
  rw [List.countP_eq_length_filter]
  exact (filter_merge hrules hmodel s).length_eq

end Findings

/-- The counts of a summary are those of the findings, each of which is in one place of each table. -/
structure Summary.Counts (s : Summary) (fs : List Finding) : Prop where
  total : s.total = fs.length
  bySeverity : (s.bySeverity.map (·.2)).sum = s.total
  byCategory : (s.byCategory.map (·.2)).sum = s.total
  positive : ∀ c n, (c, n) ∈ s.byCategory → 0 < n
  rules : s.rules = fs.countP (·.source == .rules)
  model : s.model = fs.countP (·.source == .model)

/-- Where a summary and metrics hold the same count, they agree on it. -/
structure Summary.Agrees (s : Summary) (m : Metrics) : Prop where
  total : s.total = m.total
  sum : m.total = m.high + m.medium + m.low
  bySeverity : s.bySeverity = [(.high, m.high), (.medium, m.medium), (.low, m.low)]
  smells : m.smells = (s.byCategory.lookup .codeQuality).getD 0
  vulnerabilities : m.vulnerabilities = (s.byCategory.lookup .security).getD 0

namespace Summary
variable {rules model : List Finding}

theorem sum_nonzero (rows : List (Category × Nat)) :
    ((rows.filter fun p => p.2 != 0).map (·.2)).sum = (rows.map (·.2)).sum := by
  induction rows with
  | nil => rfl
  | cons p rows ih => by_cases hp : p.2 = 0 <;> simp [hp, ih]

theorem lookup_nonzero (count : Category → Nat) (c : Category) (cs : List Category) :
    (((cs.map fun d => (d, count d)).filter fun p => p.2 != 0).lookup c).getD 0 = if c ∈ cs then count c else 0 := by
  induction cs with
  | nil => rfl
  | cons d cs ih =>
    by_cases hcd : c = d
    · subst hcd
      by_cases hzero : count c = 0
      · simpa [hzero] using ih
      · simp [hzero]
    · have hne : (c == d) = false := by simpa using hcd
      by_cases hzero : count d = 0
      · simpa [hzero, hcd] using ih
      · simpa [hzero, List.lookup_cons, hne, hcd] using ih

theorem lookup_categories (fs : List Finding) (c : Category) :
    ((categories fs).lookup c).getD 0 = Findings.countCategory fs c := by
  have hall : c ∈ Category.all := by cases c <;> decide
  rw [categories, lookup_nonzero, if_pos hall]

theorem counts_of (hrules : ∀ f ∈ rules, f.source = .rules) (hmodel : ∀ f ∈ model, f.source = .model)
    (files : List SourceFile) : (of rules model files).Counts (Findings.merge rules model) where
  total := (Findings.merge_perm rules model).length_eq.symm
  bySeverity := by
    have hsum := Findings.sum_countSeverity (rules ++ model)
    simp only [of, Severity.all, List.map_cons, List.map_nil, List.sum_cons, List.sum_nil]
    omega
  byCategory := by
    have hsum := Findings.sum_countCategory (rules ++ model)
    simpa [of, categories, sum_nonzero, Function.comp_def] using hsum
  positive := by
    intro c n h
    have hn := (List.mem_filter.1 h).2
    simpa [Nat.pos_iff_ne_zero] using hn
  rules := (Findings.countP_source hrules hmodel .rules).symm
  model := (Findings.countP_source hrules hmodel .model).symm

end Summary

theorem Metrics.of_ok {fs : List Finding} {m : Metrics} (h : of fs = .ok m) :
    Score.average (Score.measures "functionSize" fs) = .ok m.functionSize ∧
    Score.average (Score.measures "complexity" fs) = .ok m.complexity ∧ m.total = fs.length ∧
    m.high = Findings.countSeverity fs .high ∧ m.medium = Findings.countSeverity fs .medium ∧
    m.low = Findings.countSeverity fs .low ∧ m.smells = Findings.countCategory fs .codeQuality ∧
    m.vulnerabilities = Findings.countCategory fs .security := by
  unfold of at h
  cases hsize : Score.average (Score.measures "functionSize" fs) with
  | error e =>
    rw [hsize] at h
    cases h
  | ok size =>
    cases hcomplexity : Score.average (Score.measures "complexity" fs) with
    | error e =>
      rw [hsize, hcomplexity] at h
      cases h
    | ok complexity =>
      rw [hsize, hcomplexity] at h
      cases h
      exact ⟨rfl, rfl, rfl, rfl, rfl, rfl, rfl, rfl⟩

namespace Summary
variable {rules model : List Finding}

theorem agrees_of {m : Metrics} (h : Metrics.of (Findings.merge rules model) = .ok m) (files : List SourceFile) :
    (of rules model files).Agrees m := by
  have hmerged := Findings.merge_perm rules model
  obtain ⟨-, -, htotal, hhigh, hmedium, hlow, hsmells, hvulnerabilities⟩ := Metrics.of_ok h
  rw [Findings.countSeverity_perm hmerged] at hhigh hmedium hlow
  rw [Findings.countCategory_perm hmerged] at hsmells hvulnerabilities
  rw [hmerged.length_eq] at htotal
  have hsum := Findings.sum_countSeverity (rules ++ model)
  exact {
    total := htotal.symm
    sum := by omega
    bySeverity := by rw [hhigh, hmedium, hlow]; rfl
    smells := hsmells.trans (lookup_categories _ _).symm
    vulnerabilities := hvulnerabilities.trans (lookup_categories _ _).symm }

/-- The summary of a run counts every merged finding once in each of its tables, and the metrics of the report agree
with it. There is a report as soon as both averages have a value, which measures that are not vast have. -/
theorem counts_agree (hrules : ∀ f ∈ rules, f.source = .rules) (hmodel : ∀ f ∈ model, f.source = .model)
    (files : List SourceFile) (a : Option Assessment) :
    (of rules model files).Counts (Findings.merge rules model) ∧
      ((∃ r, Report.of (Findings.merge rules model) a = .ok r) ↔ Findings.Averaged (Findings.merge rules model)) ∧
      ((∀ f ∈ Findings.merge rules model, f.Measured) → Findings.Averaged (Findings.merge rules model)) ∧
      ∀ r, Report.of (Findings.merge rules model) a = .ok r → (of rules model files).Agrees r.metrics :=
  ⟨counts_of hrules hmodel files, Report.exists_of_iff, Metrics.averaged_of_measured,
    fun _ hr => agrees_of (Report.of_ok hr).metrics files⟩

/-- Two findings of the rules and one of the model, which stands between them when they are merged. -/
theorem counts_agree_three :
    let found (category : Category) (severity : Severity) (source : Source) : Finding :=
      ⟨category, severity, "t", "d", "a.ts", .single 1 (by decide), none, none, source, none, []⟩
    let rules := [found .security .high .rules, found .readability .low .rules]
    let model := [found .security .medium .model]
    (of rules model []).byCategory = [(.security, 2), (.readability, 1)] ∧
      ∃ r, Report.of (Findings.merge rules model) none = .ok r ∧ r.metrics.total = 3 ∧ r.metrics.high = 1 ∧
        r.metrics.medium = 1 ∧ r.metrics.low = 1 ∧ r.metrics.vulnerabilities = 2 := by
  intro found rules model
  have hrules : ∀ f ∈ rules, f.source = .rules := by simp [rules, found]
  have hmodel : ∀ f ∈ model, f.source = .model := by simp [model, found]
  obtain ⟨-, hmade, haveraged, hagrees⟩ := counts_agree hrules hmodel [] none
  have hmeasured : ∀ f ∈ Findings.merge rules model, f.Measured := by
    simp [Findings.merge, rules, model, found, Finding.Measured, Fields.get?]
  obtain ⟨r, hr⟩ := hmade.2 (haveraged hmeasured)
  obtain ⟨htotal, -, hseverities, -, hvulnerabilities⟩ := hagrees r hr
  have hcounts : [(Severity.high, 1), (.medium, 1), (.low, 1)] =
      [(.high, r.metrics.high), (.medium, r.metrics.medium), (.low, r.metrics.low)] := hseverities
  simp only [List.cons.injEq, Prod.mk.injEq, true_and, and_true] at hcounts
  exact ⟨rfl, r, hr, htotal.symm, hcounts.1.symm, hcounts.2.1.symm, hcounts.2.2.symm, hvulnerabilities⟩

end Summary
end CodeAudit
