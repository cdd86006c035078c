import CodeAudit.Proofs.Run.Steps
import Mathlib.Data.List.Forall2

set_option autoImplicit false

namespace CodeAudit

def FileReport.note? (report : FileReport) : Option (String × String) := report.trouble?.map (report.path, ·)

theorem FileReport.path_ofTree (g : SourceFile) (t : Except Failure (Option Node)) :
    (FileReport.ofTree g t).path = g.path := by
  unfold FileReport.ofTree
  split <;> rfl

theorem FileReport.fst_note {report : FileReport} {x : String × String} (h : report.note? = some x) :
    x.1 = report.path := by
  rcases Option.map_eq_some_iff.1 h with ⟨e, -, rfl⟩
  rfl

namespace RunResult

theorem note_new {path error : String} {es : List (String × String)} (h : path ∉ es.map Prod.fst) :
    note path error es = es ++ [(path, error)] := by
  induction es with
  | nil => rfl
  | cons x es ih =>
    rcases x with ⟨p, e⟩
    rw [List.map_cons, List.mem_cons, not_or] at h
    rw [note, if_neg (Ne.symm h.1), ih h.2, List.cons_append]

theorem addFile_fileErrors {report : FileReport} {r : RunResult}
    (h : report.path ∉ r.fileErrors.map Prod.fst) :
    (r.addFile report).fileErrors = r.fileErrors ++ report.note?.toList := by
  unfold addFile FileReport.note?
  cases report.trouble? with
  | none => simp
  | some e => exact note_new h

end RunResult

namespace Run
variable {σ : Type}

def Reported (c : Collaborators σ) (g : SourceFile) (report : FileReport) : Prop :=
  ∃ s, ((analyzeWith c.supports c.build g).run s).1 = .ok report

/-- The model can have found this in the file: nothing if it does not review it, or fails to. -/
inductive Found (c : Collaborators σ) (g : SourceFile) : List Finding → Prop
  | nothing (h : isReviewed c.languages g → ∀ m, c.model = some m →
      ∃ s e, ((m.review g.path g.text g.language.name).run s).1 = .error e) : Found c g []
  | findings {m : ModelSide σ} {s : σ} {fs : List Finding} (hm : c.model = some m)
      (hg : isReviewed c.languages g) (h : ((m.review g.path g.text g.language.name).run s).1 = .ok fs) :
      Found c g fs

theorem Reported.path {c : Collaborators σ} {g : SourceFile} {report : FileReport} (h : Reported c g report) :
    report.path = g.path := by
  rcases h with ⟨s, h⟩
  rw [run_analyzeWith] at h
  dsimp only at h
  split at h
  · cases h
  · cases h
    rfl
  · cases h
    exact FileReport.path_ofTree g _

theorem Reported.of_answers {c : Collaborators σ} {g : SourceFile} {report : FileReport} {supported : Bool}
    {tree : Except Failure (Option Node)} (h : Reported c g report)
    (hsupports : ∀ s, ((c.supports g.path).run s).1 = .ok supported)
    (hbuild : ∀ s, ((c.build g.text g.path).run s).1 = tree) :
    report = if supported then .ofTree g tree else .skip g := by
  rcases h with ⟨s, h⟩
  rw [run_analyzeWith] at h
  dsimp only at h
  rw [hsupports] at h
  cases supported with
  | false => exact (Except.ok.inj h).symm
  | true =>
    dsimp only at h
    rw [hbuild] at h
    exact (Except.ok.inj h).symm

/-- What the reports amount to and what the model has found is in the result. -/
structure Holds (reports : List FileReport) (found : List (List Finding)) (r : RunResult) : Prop where
  rules : r.rules = reports.flatMap FileReport.findings
  fileErrors : r.fileErrors = reports.filterMap FileReport.note?
  model : r.model = found.flatten

variable {reports : List FileReport} {found : List (List Finding)} {r : RunResult}

theorem Holds.addFile {report : FileReport} (h : Holds reports found r)
    (hpath : report.path ∉ reports.map FileReport.path) : Holds (reports ++ [report]) found (r.addFile report) where
  rules := by simp [RunResult.addFile, h.rules]
  fileErrors := by
    have hnew : report.path ∉ r.fileErrors.map Prod.fst := by
      rw [h.fileErrors]
      intro hmem
      rcases List.mem_map.1 hmem with ⟨x, hx, heq⟩
      rcases List.mem_filterMap.1 hx with ⟨report', hreport', hx⟩
      exact hpath (List.mem_map.2 ⟨report', hreport', by rw [← heq, FileReport.fst_note hx]⟩)
    rw [RunResult.addFile_fileErrors hnew, h.fileErrors, List.filterMap_append]
    cases hentry : report.note? <;> simp [hentry]
  model := h.model

theorem Holds.addReviewed {fs : List Finding} (h : Holds reports found r) :
    Holds reports (found ++ [fs]) (r.addReviewed fs) where
  rules := h.rules
  fileErrors := h.fileErrors
  model := by simp [RunResult.addReviewed, h.model]

theorem Holds.skip (h : Holds reports found r) : Holds reports (found ++ [[]]) r where
  rules := h.rules
  fileErrors := h.fileErrors
  model := by simp [h.model]

theorem Reported.paths {c : Collaborators σ} {files : List SourceFile} {reports : List FileReport}
    (h : List.Forall₂ (Reported c) files reports) : reports.map FileReport.path = files.map SourceFile.path := by
  induction h with
  | nil => rfl
  | cons hreport _ ih => rw [List.map_cons, List.map_cons, ih, hreport.path]

def Holding (c : Collaborators σ) (files files' : List SourceFile) (r : RunResult) : Prop :=
  ∃ reports found, List.Forall₂ (Reported c) files reports ∧ List.Forall₂ (Found c) files' found ∧
    Holds reports found r

theorem Holding.congr {c : Collaborators σ} {files files' : List SourceFile} {r' : RunResult}
    (h : Holding c files files' r) (hrules : r'.rules = r.rules) (herrors : r'.fileErrors = r.fileErrors)
    (hmodel : r'.model = r.model) : Holding c files files' r' := by
  rcases h with ⟨reports, found, hreports, hfound, hholds⟩
  exact ⟨reports, found, hreports, hfound, hrules.trans hholds.rules, herrors.trans hholds.fileErrors,
    hmodel.trans hholds.model⟩

theorem analyze_completed {c : Collaborators σ} {files : List SourceFile}
    (hfiles : (files.map SourceFile.path).Nodup) {project : String} {s : σ}
    (h : ((analyze c files project).run s).1 = .ok r) (hr : r.status = .completed) :
    Holding c files files r := by
  have hbody : Leads (· = { project }) (body c files project) (fun _ => Holding c files files)
      (fun _ => True) := by
    -- The files are gone through twice: the rules' reports are complete before the model's findings begin.
    refine (Leads.body
      (I := fun rest r => ∃ before, files = before ++ rest ∧ Holding c before [] r)
      (J := fun rest r => ∃ before, files = before ++ rest ∧ Holding c files before r)
      (K := Holding c files files) (L := Holding c files files) (E := fun _ => True)
      project ?_ ?_ ?_ ?_ ?_ ?_ ?_ ?_ ?_).mono ?_ (fun _ _ hr => hr) fun _ _ => trivial
    · rintro g rest r s report ⟨before, hall, reports, found, hreports, hfound, hholds⟩ hreport
      have hg : Reported c g report := ⟨s, hreport⟩
      refine ⟨before ++ [g], by simp [hall], reports ++ [report], found,
        List.rel_append hreports (.cons hg .nil), hfound, hholds.addFile ?_⟩
      rw [hall, List.map_append, List.map_cons, List.nodup_append] at hfiles
      rw [Reported.paths hreports, hg.path]
      exact fun hmem => hfiles.2.2 _ hmem _ List.mem_cons_self rfl
    · rintro r ⟨before, hall, hholding⟩
      rw [List.append_nil] at hall
      exact ⟨[], rfl, hall ▸ hholding⟩
    · rintro m hm g rest r s fs ⟨before, hall, reports, found, hreports, hfound, hholds⟩ hg hfs
      exact ⟨before ++ [g], by simp [hall], reports, found ++ [fs], hreports,
        List.rel_append hfound (.cons (.findings hm hg hfs) .nil), hholds.addReviewed⟩
    · rintro g rest r ⟨before, hall, reports, found, hreports, hfound, hholds⟩ hfailed
      exact ⟨before ++ [g], by simp [hall], reports, found ++ [[]], hreports,
        List.rel_append hfound (.cons (.nothing hfailed) .nil), hholds.skip⟩
    · rintro r ⟨before, hall, hholding⟩
      rw [List.append_nil] at hall
      subst hall
      exact hholding.congr rfl rfl rfl
    · exact fun r a hholding => hholding.congr rfl rfl rfl
    · exact fun r report hholding => hholding.congr rfl rfl rfl
    · exact fun r hholding => hholding.congr rfl rfl rfl
    · exact fun _ _ => trivial
    · rintro r rfl
      exact ⟨[], rfl, [], [], .nil, .nil, rfl, rfl, rfl⟩
  rcases of_analyze hbody h with hall | ⟨e, r', -, rfl⟩
  · exact hall
  · cases hr

end Run
end CodeAudit
