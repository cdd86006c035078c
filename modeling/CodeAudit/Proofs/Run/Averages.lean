import CodeAudit.Proofs.Rule.Catalogued
import CodeAudit.Proofs.Run.Completed
import CodeAudit.Proofs.Run.Located
import CodeAudit.Proofs.Run.Unanswered
import CodeAudit.Proofs.Score.Averaged
import CodeAudit.Proofs.Score.Counted

set_option autoImplicit false

namespace CodeAudit

/-- Complexities and sizes of functions are borne by the findings of their own rules. -/
structure Finding.Metered (f : Finding) : Prop where
  complexity : f.Gauged "cyclomatic-complexity" "complexity" 11
  functionSize : f.Gauged "function-size" "functionSize" 51

theorem Finding.metered_of_other {f : Finding} (hcomplex : f.rule ≠ some Code.complexFunction.name)
    (hlong : f.rule ≠ some Code.longFunction.name) (hcomplexity : f.metadata.get? "complexity" = none)
    (hsize : f.metadata.get? "functionSize" = none) : f.Metered :=
  ⟨⟨fun h => absurd h hcomplex, fun _ => hcomplexity⟩, ⟨fun h => absurd h hlong, fun _ => hsize⟩⟩

namespace Rule
variable {p : Parsed} {f : Finding}

theorem rule_ne {c d : Code} (h : f.rule = some c.name) (hcd : c ≠ d) : f.rule ≠ some d.name :=
  fun hd => hcd (Code.name_injective (Option.some.inj (h.symm.trans hd)))

theorem metered_of_code {c : Code} (h : f.rule = some c.name) (hcomplex : c ≠ .complexFunction)
    (hlong : c ≠ .longFunction) (hcomplexity : f.metadata.get? "complexity" = none)
    (hsize : f.metadata.get? "functionSize" = none) : f.Metered :=
  Finding.metered_of_other (rule_ne h hcomplex) (rule_ne h hlong) hcomplexity hsize

theorem Found.metered (h : Found p f) : f.Metered := by
  cases h with
  | @plain x n hx h | @plainLine x n hx h | @plainStart x n hx h =>
    have hnone (name : String) : Fields.get? name n.metadata = none := by rw [h.2.1]; rfl
    have hcode {c : Code} (hc : c.isMeasured = true) : n.code ≠ c := by
      rintro rfl
      rw [h.1] at hc
      cases hc
    exact metered_of_code (c := n.code) rfl (hcode rfl) (hcode rfl) (hnone _) (hnone _)
  | deepNesting hx h => exact metered_of_code (c := .deepNesting) rfl (by decide) (by decide) rfl rfl
  | largeClass hx hc h => exact metered_of_code (c := .largeClass) rfl (by decide) (by decide) rfl rfl
  | magicNumber hx v => exact metered_of_code (c := .magicNumber) rfl (by decide) (by decide) rfl rfl
  | marker hi m line snippet => exact metered_of_code (c := .warningComment) rfl (by decide) (by decide) rfl rfl
  | complexFunction hx hf h =>
    exact ⟨⟨fun _ => ⟨_, rfl, h⟩, fun hne => absurd rfl hne⟩,
      ⟨fun he => absurd he (rule_ne (c := .complexFunction) (d := .longFunction) rfl (by decide)), fun _ => rfl⟩⟩
  | @longFunction x hx hf h =>
    have hlines : ((maxFunctionLines : Nat) : Int) = 50 := rfl
    have hspan : Json.int (lineSpan p x) = .ofNat (lineSpan p x).toNat :=
      congrArg Json.int (Int.toNat_of_nonneg (by omega)).symm
    exact ⟨⟨fun he => absurd he (rule_ne (c := .longFunction) (d := .complexFunction) rfl (by decide)), fun _ => rfl⟩,
      ⟨fun _ => ⟨_, congrArg some hspan, by omega⟩, fun hne => absurd rfl hne⟩⟩

theorem complexFile_metered (h : f ∈ complexFile p) : f.Metered := by
  unfold complexFile at h
  dsimp only at h
  split at h
  · rw [List.mem_singleton.1 h]
    exact metered_of_code (c := .complexFile) rfl (by decide) (by decide) rfl rfl
  · cases h

end Rule

namespace FileReport
variable {g : SourceFile} {report : FileReport} {f : Finding}

theorem metered_ofTree {t : Except Failure (Option Node)} (h : f ∈ (ofTree g t).findings) : f.Metered := by
  unfold ofTree at h
  split at h
  · obtain h | h := found_runRules h
    · exact h.metered
    · exact Rule.complexFile_metered h
  · cases h

theorem metered_of_analyzeWith {σ : Type} {supports : String → StateM σ (Except Failure Bool)}
    {build : String → String → StateM σ (Except Failure (Option Node))} {s : σ}
    (h : ((analyzeWith supports build g).run s).1 = .ok report) (hf : f ∈ report.findings) : f.Metered := by
  obtain rfl | ⟨t, rfl⟩ := Run.analyzeWith_cases h
  · cases hf
  · exact metered_ofTree hf

end FileReport

theorem Issue.metered_toFinding {raw : Fields} {c : Chunk} {path : String} {f : Finding}
    (h : toFinding raw c path = .ok f) : f.Metered := by
  obtain ⟨-, -, -, hrule, hmetadata⟩ := of_toFinding h
  exact Finding.metered_of_other (by rw [hrule]; simp) (by rw [hrule]; simp) (by rw [hmetadata]; rfl)
    (by rw [hmetadata]; rfl)

theorem Reviewer.metered_reviewFile {σ : Type} {r : Reviewer} {w : World σ} {path text language : String} {s : σ}
    {fs : List Finding} {f : Finding} (h : ((r.reviewFile w path text language).run s).1 = .ok fs) (hf : f ∈ fs) :
    f.Metered := by
  obtain ⟨gs, rfl, hissues⟩ := exists_issues h
  obtain ⟨c, -, raw, hraw⟩ := hissues f (Findings.mem_of_mem_dedupe hf)
  exact Issue.metered_toFinding hraw

namespace RunResult
variable {r : RunResult}

def Metered (r : RunResult) : Prop := ∀ f ∈ r.rules ++ r.model, f.Metered

theorem Metered.addFile {report : FileReport} (h : r.Metered) (hreport : ∀ f ∈ report.findings, f.Metered) :
    (r.addFile report).Metered := by
  intro f hf
  simp only [RunResult.addFile, List.mem_append, or_assoc] at hf
  obtain hf | hf | hf := hf
  · exact h f (List.mem_append_left _ hf)
  · exact hreport f hf
  · exact h f (List.mem_append_right _ hf)

theorem Metered.addReviewed {fs : List Finding} (h : r.Metered) (hfs : ∀ f ∈ fs, f.Metered) :
    (r.addReviewed fs).Metered := by
  intro f hf
  simp only [RunResult.addReviewed, ← List.append_assoc] at hf
  obtain hf | hf := List.mem_append.1 hf
  · exact h f hf
  · exact hfs f hf

end RunResult

namespace Run
variable {σ : Type} {c : Collaborators σ} {files : List SourceFile} {project : String} {r : RunResult} {s : σ}

theorem analyze_metered {reviewer : Reviewer} {w : World σ}
    (hmodel : ∀ m, c.model = some m → m.review = reviewer.reviewFile w)
    (h : ((analyze c files project).run s).1 = .ok r) : ∀ f ∈ r.findings, f.Metered := by
  have hbody : Leads (· = { project }) (body c files project) (fun _ => RunResult.Metered) RunResult.Metered := by
    refine (Leads.body (I := fun _ => RunResult.Metered) (J := fun _ => RunResult.Metered) (K := RunResult.Metered)
      (L := RunResult.Metered) project ?_ (fun r hr => hr) ?_ (fun g rest r hr _ => hr) (fun r hr => hr)
      (fun r a hr => hr) (fun r report hr => hr) (fun r hr => hr) ?_).mono ?_ (fun _ _ hr => hr) fun _ hr => hr
    · exact fun g rest r s report hr hreport => hr.addFile fun f => FileReport.metered_of_analyzeWith hreport
    · intro m hm g rest r s fs hr _ hfs
      rw [hmodel m hm] at hfs
      exact hr.addReviewed fun f => Reviewer.metered_reviewFile hfs
    · rintro r (⟨_, hr⟩ | ⟨_, hr⟩ | hr | hr | hr) <;> exact hr
    · rintro r rfl f hf
      cases hf
  have hall : r.Metered := by
    obtain hr | ⟨e, r', hr, rfl⟩ := of_analyze hbody h
    · exact hr
    · exact hr
  intro f hf
  rw [(analyze_cases h).1] at hf
  exact hall f ((List.mergeSort_perm _ _).mem_iff.1 hf)

/-- The report, if there is one, is the answer to the findings. -/
def Scored (c : Collaborators σ) (r : RunResult) : Prop :=
  ∀ report, r.report = some report →
    ∃ a s, ((c.score (Findings.merge r.rules r.model) a).run s).1 = .ok report

theorem analyze_scored (h : ((analyze c files project).run s).1 = .ok r) : Scored c r := by
  have hnone {r : RunResult} (hr : r.report = none) : Scored c r := fun report hreport => by
    rw [hr] at hreport
    cases hreport
  have hbody : Leads (· = { project }) (body c files project) (fun _ => Scored c) (Scored c) := by
    refine (Leads.body_scored (I := fun _ r => r.report = none) (J := fun _ r => r.report = none)
      (K := fun r => r.report = none ∧ r.findings = Findings.merge r.rules r.model) (L := Scored c) project
      (fun _ _ _ _ _ hr _ => hr) (fun _ hr => hr) (fun _ _ _ _ _ _ _ hr _ _ => hr) (fun _ _ _ hr _ => hr)
      (fun _ hr => ⟨hr, rfl⟩) (fun _ _ hr => hr) ?_ (fun _ hr => hr) ?_).mono ?_ (fun _ _ hr => hr) fun _ hr => hr
    · rintro r report a s ⟨-, hfindings⟩ hscore _ hreport
      obtain rfl := Option.some.inj hreport
      exact ⟨a, s, hfindings ▸ hscore⟩
    · rintro r (⟨_, hr⟩ | ⟨_, hr⟩ | ⟨hr, -⟩ | hr | hr)
      · exact hnone hr
      · exact hnone hr
      · exact hnone hr
      · exact hr
      · exact hr
    · rintro r rfl
      rfl
  obtain hr | ⟨e, r', hr, rfl⟩ := of_analyze hbody h
  · exact hr
  · exact hr

/-- The averages of a run's report are those of the complex functions and of the long ones that the run has found,
whatever else it has found. -/
theorem analyze_averages {reviewer : Reviewer} {w : World σ}
    (hmodel : ∀ m, c.model = some m → m.review = reviewer.reviewFile w)
    (hscore : ∀ fs a s, ((c.score fs a).run s).1 = Report.of fs a)
    (h : ((analyze c files project).run s).1 = .ok r) {report : Report} (hreport : r.report = some report)
    (hcomplexity : (Findings.flagged "cyclomatic-complexity" "complexity" r.findings).sum < 2 ^ 50)
    (hsize : (Findings.flagged "function-size" "functionSize" r.findings).sum < 2 ^ 50) :
    Findings.AverageOf "cyclomatic-complexity" "complexity" 11 r.findings report.metrics.complexity ∧
      Findings.AverageOf "function-size" "functionSize" 51 r.findings report.metrics.functionSize := by
  obtain ⟨a, s', hanswer⟩ := analyze_scored h report hreport
  rw [hscore, ← (analyze_cases h).1] at hanswer
  obtain ⟨hsizes, hcomplexities, -⟩ := Metrics.of_ok (Report.of_ok hanswer).metrics
  have hmetered := analyze_metered hmodel h
  exact ⟨Findings.averageOf_gauged (by decide) (fun f hf => (hmetered f hf).complexity) hcomplexity hcomplexities,
    Findings.averageOf_gauged (by decide) (fun f hf => (hmetered f hf).functionSize) hsize hsizes⟩

def forked : Node :=
  ⟨"function_declaration", true, none, 0, 1, List.replicate 10 ⟨"if_statement", true, none, 0, 1, []⟩⟩

theorem flagged_forked :
    let fs := (runRules (.of "a.ts" "x" forked)).1
    Findings.flagged "cyclomatic-complexity" "complexity" fs = [11] ∧
      Findings.flagged "function-size" "functionSize" fs = [] := by
  decide +kernel

/-- Its run, with a model that keeps silent. -/
theorem analyze_averages_forked :
    let reviewer : Reviewer := ⟨⟨1, 0, by decide⟩, 2, .whole 0, .whole 5, 100⟩
    let w : World Nat := ⟨fun _ n => (⟨.silence, 0⟩, n + 1), fun _ n => ((), n), Script.nesting⟩
    let c : Collaborators Nat := {
      supports := fun _ => return .ok true
      build := fun _ _ => return .ok (some forked)
      model := some ⟨reviewer.reviewFile w, fun _ _ => return .ok none⟩
      languages := ["TypeScript"]
      score := fun fs a => return Report.of fs a
      save := none
      progress := fun _ _ _ => return .ok () }
    ∃ r report, ((analyze c [⟨"a.ts", "x"⟩] "p").run 0).1 = .ok r ∧ r.report = some report ∧
      report.metrics.complexity = 11 ∧ report.metrics.functionSize = 0 := by
  intro reviewer w c
  have hidle : Idle (⟨reviewer.reviewFile w, fun _ _ => return .ok none⟩ : ModelSide Nat) :=
    ⟨fun path text language => Reviewer.reviewFile_void (fun _ _ => fun v hv => by cases hv) text,
      fun _ _ _ => rfl⟩
  have hreliable : Reliable c := ⟨fun _ _ _ _ => rfl, fun _ _ _ => rfl, fun _ h => by cases h⟩
  have hmoderate : ∀ f ∈ [SourceFile.mk "a.ts" "x"], ∀ s root, ((c.build f.text f.path).run s).1 = .ok (some root) →
      (Parsed.of f.path f.text root).Measurable := by
    intro f hf s root hroot
    cases List.mem_singleton.1 hf
    cases hroot
    exact Parsed.Moderate.measurable ⟨by decide +kernel, by decide +kernel⟩
  obtain ⟨r, hr, hstatic, hreport, -⟩ := analyze_idle rfl hidle hreliable (fun _ _ => ⟨true, rfl⟩) hmoderate "p" 0
  obtain ⟨report, hreport⟩ := Option.ne_none_iff_exists'.1 hreport
  obtain ⟨reports, found, hreports, -, hholds⟩ := analyze_completed (by simp) hr hstatic.status
  have hrules : r.rules = (runRules (.of "a.ts" "x" forked)).1 := by
    rw [hholds.rules]
    have hsupports (s : Nat) : ((c.supports "a.ts").run s).1 = .ok true := rfl
    have hbuild (s : Nat) : ((c.build "x" "a.ts").run s).1 = .ok (some forked) := rfl
    cases hreports with
    | cons hreported hrest =>
      cases hrest
      rw [hreported.of_answers hsupports hbuild]
      exact List.append_nil _
  have hperm : r.findings.Perm (runRules (.of "a.ts" "x" forked)).1 := by
    rw [(analyze_cases hr).1, hstatic.model, hrules]
    exact (List.mergeSort_perm _ _).trans (by simp)
  obtain ⟨hcomplexities, hsizes⟩ := flagged_forked
  have hcomplex := (Findings.flagged_perm hperm).trans (.of_eq hcomplexities)
  have hlong := (Findings.flagged_perm hperm).trans (.of_eq hsizes)
  rw [List.perm_singleton] at hcomplex
  rw [List.perm_nil] at hlong
  have hmodel : ∀ m, c.model = some m → m.review = reviewer.reviewFile w := fun m hm => by
    cases hm
    rfl
  obtain ⟨havg, hsize⟩ := analyze_averages hmodel hreliable.score hr hreport (by rw [hcomplex]; decide)
    (by rw [hlong]; decide)
  refine ⟨r, report, hr, hreport, ?_, ?_⟩
  · obtain ⟨-, lo, hlo, hi, hhi, -, hl, hh⟩ := havg.between (Findings.flagged_ne_nil.1 (by rw [hcomplex]; simp))
    rw [hcomplex, List.mem_singleton] at hlo hhi
    omega
  · exact hsize.zero (Findings.flagged_eq_nil.1 hlong)

end Run
end CodeAudit
