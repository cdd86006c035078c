import CodeAudit.Proofs.Review.Located
import CodeAudit.Proofs.Rule.Located
import CodeAudit.Proofs.Run.Kept

set_option autoImplicit false

namespace CodeAudit

def Finding.LiesIn (f : Finding) (g : SourceFile) : Prop := f.path = g.path ∧ f.range.stop ≤ g.lineCount

theorem FileReport.reports_ofTree {g : SourceFile} {t : Except Failure (Option Node)} {f : Finding}
    (h : f ∈ (FileReport.ofTree g t).findings) : f.LiesIn g ∧ f.source = .rules ∧ f.rule ≠ none := by
  unfold FileReport.ofTree at h
  split at h
  · have hf := reports_runRules h
    exact ⟨⟨hf.path, hf.stop⟩, hf.source, hf.rule⟩
  · cases h

namespace Run
variable {σ : Type}

theorem analyzeWith_cases {supports : String → StateM σ (Except Failure Bool)}
    {build : String → String → StateM σ (Except Failure (Option Node))} {f : SourceFile} {s : σ}
    {report : FileReport} (h : ((analyzeWith supports build f).run s).1 = .ok report) :
    report = .skip f ∨ ∃ t, report = .ofTree f t := by
  rw [run_analyzeWith] at h
  dsimp only at h
  split at h
  · cases h
  · cases h
    exact .inl rfl
  · cases h
    exact .inr ⟨_, rfl⟩

def RulesLocated (files : List SourceFile) (r : RunResult) : Prop :=
  ∀ f ∈ r.rules, (∃ g ∈ files, f.LiesIn g) ∧ f.source = .rules ∧ f.rule ≠ none

def ModelLocated (files : List SourceFile) (r : RunResult) : Prop :=
  (∀ f ∈ r.model, (∃ g ∈ files, f.LiesIn g) ∧ f.source = .model ∧ f.rule = none) ∧
    (r.model.map Finding.key).Nodup

theorem RulesLocated.addFile {files : List SourceFile} {g : SourceFile} {r : RunResult}
    {report : FileReport} (h : RulesLocated files r) (hg : g ∈ files)
    (hreport : report = .skip g ∨ ∃ t, report = .ofTree g t) : RulesLocated files (r.addFile report) := by
  intro f hf
  rcases List.mem_append.1 hf with hf | hf
  · exact h f hf
  · rcases hreport with rfl | ⟨t, rfl⟩
    · cases hf
    · rcases FileReport.reports_ofTree hf with ⟨hlies, hsource⟩
      exact ⟨⟨g, hg, hlies⟩, hsource⟩

theorem ModelLocated.mono {files files' : List SourceFile} {r : RunResult} (h : ModelLocated files r)
    (hsub : files ⊆ files') : ModelLocated files' r := by
  refine ⟨fun f hf => ?_, h.2⟩
  rcases h.1 f hf with ⟨⟨g, hg, hlies⟩, hsource⟩
  exact ⟨⟨g, hsub hg, hlies⟩, hsource⟩

theorem ModelLocated.addReviewed {files : List SourceFile} {g : SourceFile} {r : RunResult}
    {fs : List Finding} (h : ModelLocated files r) (hg : g.path ∉ files.map SourceFile.path)
    (hfs : ∀ f ∈ fs, Reviewed g.path g.text f) (hkeys : (fs.map Finding.key).Nodup) :
    ModelLocated (files ++ [g]) (r.addReviewed fs) := by
  refine ⟨fun f hf => ?_, ?_⟩
  · rcases List.mem_append.1 hf with hf | hf
    · exact (h.mono (List.subset_append_left files [g])).1 f hf
    · have hf := hfs f hf
      exact ⟨⟨g, by simp, hf.path, hf.stop⟩, hf.source, hf.rule⟩
  · rw [RunResult.addReviewed, List.map_append, List.nodup_append]
    refine ⟨h.2, hkeys, fun k hk k' hk' heq => ?_⟩
    subst heq
    rcases List.mem_map.1 hk with ⟨f, hf, rfl⟩
    rcases List.mem_map.1 hk' with ⟨f', hf', heq⟩
    rcases (h.1 f hf).1 with ⟨g', hg', hlies⟩
    have hpath : f'.path = f.path := congrArg Prod.fst heq
    refine hg (List.mem_map.2 ⟨g', hg', ?_⟩)
    rw [← hlies.1, ← hpath, (hfs f' hf').path]

/-- Every finding of a run that returns lies in one of its files and tells truly who found it, whatever trees
the run is given and whatever the model replies; and no two findings of the model have the same key. -/
theorem analyze_located {c : Collaborators σ} {reviewer : Reviewer} {w : World σ}
    (hmodel : ∀ m, c.model = some m → m.review = reviewer.reviewFile w) {files : List SourceFile}
    (hfiles : (files.map SourceFile.path).Nodup) {project : String} {r : RunResult} {s s' : σ}
    (h : (analyze c files project).run s = (.ok r, s')) :
    r.findings.Perm (r.rules ++ r.model) ∧
      (∀ f ∈ r.findings, ∃ g ∈ files, f.path = g.path ∧
        1 ≤ f.range.start ∧ f.range.start ≤ f.range.stop ∧ f.range.stop ≤ g.lineCount) ∧
      (∀ f ∈ r.rules, f.source = .rules ∧ f.rule ≠ none) ∧
      (∀ f ∈ r.model, f.source = .model ∧ f.rule = none) ∧
      (r.model.map fun f => (f.path, f.range.start, f.title)).Nodup := by
  have hbody : Leads (· = { project }) (body c files project)
      (fun _ r => RulesLocated files r ∧ ModelLocated files r)
      (fun r => RulesLocated files r ∧ ModelLocated files r) := by
    -- The model's findings are told of the files gone through, so that the path of the next one is a new one.
    refine (Leads.body
      (I := fun rest r => (∃ before, files = before ++ rest) ∧ RulesLocated files r ∧ r.model = [])
      (J := fun rest r => ∃ before, files = before ++ rest ∧ RulesLocated files r ∧ ModelLocated before r)
      (K := fun r => RulesLocated files r ∧ ModelLocated files r)
      (L := fun r => RulesLocated files r ∧ ModelLocated files r)
      project ?_ ?_ ?_ ?_ ?_ ?_ ?_ ?_ ?_).mono ?_ (fun _ _ hr => hr) fun _ hr => hr
    · rintro g rest r s report ⟨⟨before, hall⟩, hrules, hnone⟩ hreport
      have hadded := hrules.addFile (g := g) (by simp [hall]) (analyzeWith_cases hreport)
      exact ⟨⟨before ++ [g], by simp [hall]⟩, hadded, hnone⟩
    · rintro r ⟨-, hrules, hnone⟩
      exact ⟨[], rfl, hrules, by simp [ModelLocated, hnone]⟩
    · rintro m hm g rest r s fs ⟨before, hall, hrules, hmodels⟩ - hfs
      rw [hmodel m hm] at hfs
      rcases Reviewer.reviewFile_located hfs with ⟨hlies, hkeys⟩
      refine ⟨before ++ [g], by simp [hall], hrules, hmodels.addReviewed ?_ hlies hkeys⟩
      rw [hall, List.map_append, List.map_cons, List.nodup_append] at hfiles
      exact fun hmem => hfiles.2.2 _ hmem _ List.mem_cons_self rfl
    · rintro g rest r ⟨before, hall, hrules, hmodels⟩ -
      exact ⟨before ++ [g], by simp [hall], hrules, hmodels.mono (List.subset_append_left before [g])⟩
    · rintro r ⟨before, hall, hrules, hmodels⟩
      exact ⟨hrules, hmodels.mono (by simp [hall])⟩
    · exact fun r a hr => hr
    · exact fun r report hr => hr
    · exact fun r hr => hr
    · rintro r (⟨_, -, hrules, hnone⟩ | ⟨_, before, hall, hrules, hmodels⟩ | hr | hr | hr)
      · exact ⟨hrules, by simp [ModelLocated, hnone]⟩
      · exact ⟨hrules, hmodels.mono (by simp [hall])⟩
      · exact hr
      · exact hr
      · exact hr
    · rintro r rfl
      exact ⟨⟨[], rfl⟩, by simp [RulesLocated], rfl⟩
  have hr : ((analyze c files project).run s).1 = .ok r := by rw [h]
  have hfindings : r.findings.Perm (r.rules ++ r.model) := by
    rw [(analyze_cases hr).1]
    exact List.mergeSort_perm _ _
  have hlocated : RulesLocated files r ∧ ModelLocated files r := by
    rcases of_analyze hbody hr with hall | ⟨e, r', hall, rfl⟩
    · exact hall
    · exact hall
  refine ⟨hfindings, fun f hf => ?_, fun f hf => (hlocated.1 f hf).2, fun f hf => (hlocated.2.1 f hf).2,
    hlocated.2.2⟩
  have hlies : ∃ g ∈ files, f.LiesIn g := by
    rcases List.mem_append.1 (hfindings.mem_iff.1 hf) with hf | hf
    · exact (hlocated.1 f hf).1
    · exact (hlocated.2.1 f hf).1
  rcases hlies with ⟨g, hg, hpath, hstop⟩
  exact ⟨g, hg, hpath, f.range.one_le, f.range.start_le, hstop⟩

/-- A tree that ends long after the text, and a reply about a line that there is not. -/
theorem analyze_located_past_end :
    let reviewer : Reviewer := ⟨⟨5, 0, by decide⟩, 1, .whole 0, .whole 5, 100⟩
    let w : World Unit :=
      ⟨fun _ _ => (⟨.content (.text "[\x7b\"line\": 7\x7d]"), 0⟩, ()), fun _ _ => ((), ()), Script.nesting⟩
    let c : Collaborators Unit := {
      build := fun _ _ => return .ok (some ⟨"debugger_statement", true, none, 0, 99, []⟩)
      model := some ⟨reviewer.reviewFile w, fun _ _ => return .ok none⟩
      languages := ["TypeScript"]
      score := fun _ _ => return .error (.runtime "no score")
      save := none
      progress := fun _ _ _ => return .ok () }
    ∃ r, ((analyze c [⟨"a.ts", "x\ny"⟩] "p").run ()).1 = .ok r ∧
      (∃ f ∈ r.rules, f.title = "Debugger statement found" ∧ f.range.stop ≤ 2) ∧
      ∃ f ∈ r.model, f.title = "Untitled Issue" ∧ f.range.stop ≤ 2 := by
  intro reviewer w c
  have hreview : ∃ g : Finding, g.title = "Untitled Issue" ∧
      ((reviewer.reviewFile w "a.ts" "x\ny" "TypeScript").run ()).1 = .ok [g] := by
    have hsplit : Chunk.split reviewer.window "x\ny" = [⟨"x\ny", 1, 2, 0, 1⟩] := by cbv
    have hissues : Answer.issues w.nesting "[\x7b\"line\": 7\x7d]".toList = .ok [[("line", .int 7)]] := by cbv
    have hissue : ∃ g, Outcome.normalized ⟨"x\ny", 1, 2, 0, 1⟩ "a.ts" [[("line", .int 7)]] = [g] ∧
      g.title = "Untitled Issue" := ⟨_, rfl, rfl⟩
    rcases hissue with ⟨g, hg, htitle⟩
    refine ⟨g, htitle, ?_⟩
    rw [Reviewer.reviewFile_single (by decide) rfl hsplit (fun _ _ => rfl) hissues, hg]
    rfl
  rcases hreview with ⟨g, hg, hreview⟩
  have hasked : askLenient (reviewer.reviewFile w "a.ts" "x\ny" "TypeScript") = pure (some [g]) :=
    askLenient_eq_pure hreview
  have hlanguage : (SourceFile.language ⟨"a.ts", "x\ny"⟩).name = "TypeScript" := rfl
  let p := Parsed.of "a.ts" "x\ny" ⟨"debugger_statement", true, none, 0, 99, []⟩
  have hrun : ∃ r, (analyze c [⟨"a.ts", "x\ny"⟩] "p").run () = (.ok r, ()) ∧
      r.rules = (runRules p).1 ∧ r.model = [g] := by
    rw [run_analyze]
    dsimp only [body, Run.review]
    have hmodel : c.model = some ⟨reviewer.reviewFile w, fun _ _ => return .ok none⟩ := rfl
    rw [hmodel]
    dsimp only [reviewFiles]
    rw [hlanguage, hasked]
    exact ⟨_, rfl, rfl, rfl⟩
  rcases hrun with ⟨r, hrun, hrules, hmodel⟩
  rcases analyze_located (c := c) (w := w) (fun m hm => by cases hm; rfl) (by simp) hrun with
    ⟨hperm, hlies, -⟩
  have hstop (f : Finding) (hf : f ∈ r.rules ++ r.model) : f.range.stop ≤ 2 := by
    rcases hlies f (hperm.mem_iff.2 hf) with ⟨g, hg, -, -, -, hle⟩
    rw [List.mem_singleton.1 hg] at hle
    exact hle
  have hdebug : p.report p.top Rule.debuggerNotice ∈ r.rules := by
    rw [hrules]
    have hrule : Rule.sure "check_debug_code" Rule.debugCode ∈ Rule.all := by simp [Rule.all]
    refine List.mem_flatMap.2 ⟨_, List.mem_map.2 ⟨_, hrule, rfl⟩, ?_⟩
    have hcode : Rule.debugCode p = [p.report p.top Rule.debuggerNotice] := rfl
    simp [runRules.findings, Rule.sure, Rule.run, hcode]
  refine ⟨r, by rw [hrun], ⟨_, hdebug, rfl, hstop _ (List.mem_append_left _ hdebug)⟩, g, by simp [hmodel], hg,
    hstop g (by simp [hmodel])⟩

end Run
end CodeAudit
