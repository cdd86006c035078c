import CodeAudit.Proofs.Run.Steps

/-!
What a run has found is kept, also where it fails: a record of all that the trees and the reviews come to
is what the result holds in the end.
-/
set_option autoImplicit false

namespace CodeAudit

abbrev Gains := List Finding × List Finding

def RunResult.gains (r : RunResult) : Gains := (r.rules, r.model)

def beside {σ α : Type} (x : StateM σ α) : StateM (Gains × σ) α := fun (d, s) =>
  let (a, s) := x.run s
  (a, d, s)

/-- The model's part, with a record of what its reviews come to. -/
def ModelSide.watched {σ : Type} (m : ModelSide σ) : ModelSide (Gains × σ) where
  review path text language := fun ((rules, model), s) =>
    let (fs, s) := (m.review path text language).run s
    (fs, (rules, model ++ fs.toOption.getD []), s)
  assess files project := beside (m.assess files project)

def Collaborators.watched {σ : Type} (c : Collaborators σ) : Collaborators (Gains × σ) where
  supports path := beside (c.supports path)
  build text path := fun ((rules, model), s) =>
    let (t, s) := (c.build text path).run s
    (t, (rules ++ (FileReport.ofTree ⟨path, text⟩ t).findings, model), s)
  model := c.model.map ModelSide.watched
  languages := c.languages
  score fs a := beside (c.score fs a)
  save := c.save.map fun save fs r => beside (save fs r)
  progress p n message := beside (c.progress p n message)

namespace Run
variable {σ α β : Type}

def recorded (p : (Except Failure α × RunResult) × σ) : (Except Failure α × RunResult) × Gains × σ :=
  (p.1, p.1.2.gains, p.2)

/-- The second step does what the first does, and the record keeps up with the result. -/
def Mirrors (x : RunM σ α) (y : RunM (Gains × σ) α) : Prop :=
  ∀ r s, (y.run.run r).run (r.gains, s) = recorded ((x.run.run r).run s)

namespace Mirrors

theorem pure (a : α) : Mirrors (Pure.pure a : RunM σ α) (Pure.pure a) := fun _ _ => rfl

theorem bind {x : RunM σ α} {y : RunM (Gains × σ) α} {f : α → RunM σ β} {g : α → RunM (Gains × σ) β}
    (h : Mirrors x y) (hf : ∀ a, Mirrors (f a) (g a)) : Mirrors (x >>= f) (y >>= g) := by
  intro r s
  rw [run_bind, run_bind, h r s]
  generalize (x.run.run r).run s = p
  rcases p with ⟨⟨e | a, r'⟩, s'⟩
  · rfl
  · exact hf a r' s'

theorem get : Mirrors (get : RunM σ RunResult) get := fun _ _ => rfl

theorem modify {g : RunResult → RunResult} (h : ∀ r, (g r).gains = r.gains) :
    Mirrors (modify g : RunM σ Unit) (modify g) := by
  intro r s
  rw [← h r]
  rfl

theorem ask (x : StateM σ (Except Failure α)) : Mirrors (Run.ask x) (Run.ask (beside x)) := fun _ _ => rfl

theorem askFreely (x : StateM σ (Except Failure (Option α))) :
    Mirrors (Run.askFreely x) (Run.askFreely (beside x)) := by
  intro r s
  rw [run_askFreely, run_askFreely]
  rfl

end Mirrors

theorem mirrors_report (c : Collaborators σ) (f : SourceFile) : Mirrors
    (do let report ← ask (analyzeWith c.supports c.build f); modify (RunResult.addFile report))
    (do let report ← ask (analyzeWith c.watched.supports c.watched.build f)
        modify (RunResult.addFile report)) := by
  intro r s
  rw [run_bind, run_bind, run_ask, run_ask, run_analyzeWith, run_analyzeWith]
  have hsupports : (c.watched.supports f.path).run (r.gains, s) =
      (((c.supports f.path).run s).1, r.gains, ((c.supports f.path).run s).2) := rfl
  rw [hsupports]
  rcases (c.supports f.path).run s with ⟨e | ⟨⟨⟩⟩, s'⟩
  · rfl
  · -- A file without a grammar is not built, and adds nothing to the result.
    change ((Except.ok (), r.addFile (.skip f)), (r.rules, r.model), s') =
      ((Except.ok (), r.addFile (.skip f)), (r.rules ++ [], r.model), s')
    rw [List.append_nil]
  · rfl

theorem mirrors_reviewed (m : ModelSide σ) (f : SourceFile) {x : RunM σ β} {y : RunM (Gains × σ) β}
    (h : Mirrors x y) : Mirrors
    (do
      match ← askLenient (m.review f.path f.text f.language.name) with
      | some fs => modify (RunResult.addReviewed fs)
      | none => pure ()
      x)
    (do
      match ← askLenient (m.watched.review f.path f.text f.language.name) with
      | some fs => modify (RunResult.addReviewed fs)
      | none => pure ()
      y) := by
  intro r s
  rw [run_bind, run_bind, run_askLenient, run_askLenient]
  have hreview : (m.watched.review f.path f.text f.language.name).run (r.gains, s) =
      (((m.review f.path f.text f.language.name).run s).1,
        (r.rules, r.model ++ ((m.review f.path f.text f.language.name).run s).1.toOption.getD []),
        ((m.review f.path f.text f.language.name).run s).2) := rfl
  rw [hreview]
  rcases (m.review f.path f.text f.language.name).run s with ⟨e | fs, s'⟩
  · -- A failed review is recorded as one that finds nothing; only one of configuration ends the run.
    change follow _ ((lenient (.error e), r), (r.rules, r.model ++ []), s') = _
    rw [List.append_nil]
    cases e with
    | config message => rfl
    | _ => exact h r s'
  · exact h (r.addReviewed fs) s'

theorem mirrors_runRulesOn (c : Collaborators σ) (files : List SourceFile) :
    Mirrors (runRulesOn c files) (runRulesOn c.watched files) := by
  induction files with
  | nil => exact .pure ()
  | cons f rest ih =>
    have h := (mirrors_report c f).bind fun _ => ih
    simp only [bind_assoc] at h
    exact h

theorem mirrors_reviewFiles (c : Collaborators σ) (m : ModelSide σ) (total n : Nat)
    (files : List SourceFile) :
    Mirrors (reviewFiles c m total n files) (reviewFiles c.watched m.watched total n files) := by
  induction files generalizing n with
  | nil => exact .pure ()
  | cons f rest ih =>
    have hrest := (Mirrors.ask (c.progress .review (reviewPercent (n + 1) total)
      s!"Reviewed {n + 1}/{total} files")).bind fun _ => ih (n + 1)
    unfold reviewFiles
    by_cases hf : isReviewed c.languages f = true
    · simp only [Collaborators.watched, hf, if_true]
      exact mirrors_reviewed m f hrest
    · simp only [Collaborators.watched, hf]
      exact hrest

theorem mirrors_body (c : Collaborators σ) (files : List SourceFile) (project : String) :
    Mirrors (body c files project) (body c.watched files project) := by
  have hannounce (p : Phase) (message : String) : Mirrors (announce c p message) (announce c.watched p message) :=
    .ask _
  have hmodel : c.watched.model = c.model.map ModelSide.watched := rfl
  have hreview : Mirrors (review c files) (review c.watched files) := by
    unfold review
    cases hm : c.model with
    | none =>
      simp only [hmodel, hm, Option.map_none]
      exact .pure ()
    | some m =>
      simp only [hmodel, hm, Option.map_some]
      exact mirrors_reviewFiles c m _ 0 files
  have hassess : Mirrors (assess c files project) (assess c.watched files project) := by
    unfold assess
    cases hm : c.model with
    | none =>
      simp only [hmodel, hm, Option.map_none]
      exact .pure none
    | some m =>
      simp only [hmodel, hm, Option.map_some]
      exact .askFreely _
  have hsave (fs : List Finding) (report : Report) : Mirrors (save c fs report) (save c.watched fs report) := by
    unfold save
    cases hs : c.save with
    | none =>
      simp only [Collaborators.watched, hs]
      exact .pure ()
    | some save =>
      simp only [Collaborators.watched, hs]
      exact .ask _
  unfold body
  refine (hannounce _ _).bind fun _ => ?_
  refine (mirrors_runRulesOn c files).bind fun _ => ?_
  refine Mirrors.get.bind fun r => (hannounce _ _).bind fun _ => ?_
  refine hreview.bind fun _ => ?_
  refine Mirrors.get.bind fun r => (hannounce _ _).bind fun _ => ?_
  refine .bind (.modify (by exact fun _ => rfl)) fun _ => ?_
  refine Mirrors.get.bind fun r => (hannounce _ _).bind fun _ => ?_
  refine hassess.bind fun insights => ?_
  refine .bind (.modify (by exact fun _ => rfl)) fun _ => (hannounce _ _).bind fun _ => ?_
  refine Mirrors.get.bind fun r => (Mirrors.ask _).bind fun report => ?_
  refine .bind (.modify (by exact fun _ => rfl)) fun _ => ?_
  refine (hsave _ _).bind fun _ => (hannounce _ _).bind fun _ => ?_
  exact .bind (.modify (by exact fun _ => rfl)) fun _ => hannounce _ _

theorem mirrors_analyze (c : Collaborators σ) (files : List SourceFile) (project : String) {r : RunResult}
    {s s' : σ} (h : (analyze c files project).run s = (.ok r, s')) :
    (analyze c.watched files project).run (([], []), s) = (.ok r, r.gains, s') := by
  rw [run_analyze] at h ⊢
  have hprogress (p : Phase) (n : Nat) (message : String) (d : Gains) (s : σ) :
      (c.watched.progress p n message).run (d, s) =
        (((c.progress p n message).run s).1, d, ((c.progress p n message).run s).2) := rfl
  rw [hprogress]
  dsimp only at h ⊢
  generalize (c.progress .started _ _).run s = p at h ⊢
  rcases p with ⟨e | ⟨⟩, s₁⟩
  · cases h
  · have hbody : ((body c.watched files project).run.run { project }).run (([], []), s₁) =
        recorded (((body c files project).run.run { project }).run s₁) :=
      mirrors_body c files project { project } s₁
    dsimp only at h ⊢
    rw [hbody]
    generalize ((body c files project).run.run { project }).run s₁ = q at h ⊢
    rcases q with ⟨⟨e | ⟨⟩, r'⟩, s₂⟩
    · cases he : e.isConfig with
      | true =>
        simp [finish, he] at h
        cases h
      | false =>
        simp only [recorded]
        rw [run_finish c he] at h
        rw [run_finish c.watched he, hprogress]
        dsimp only at h ⊢
        generalize (c.progress .failed _ _).run s₂ = p at h ⊢
        rcases p with ⟨e' | ⟨⟩, s₃⟩
        · cases h
        · cases h
          rfl
    · cases h
      rfl

theorem salvage_of_nil {r : RunResult} (h : r.findings = []) :
    r.salvage = Findings.merge r.rules r.model := by simp [RunResult.salvage, h]

theorem salvage_of_merged {r : RunResult} (h : r.findings = Findings.merge r.rules r.model) :
    r.salvage = Findings.merge r.rules r.model := by simp [RunResult.salvage, h]

/-- As long as no step has failed. -/
def Along (r : RunResult) : Prop := r.status = .completed ∧ r.error = none

theorem analyze_cases {c : Collaborators σ} {files : List SourceFile} {project : String} {r : RunResult}
    {s : σ} (h : ((analyze c files project).run s).1 = .ok r) :
    r.findings = Findings.merge r.rules r.model ∧
      (r.status = .completed ∧ r.error = none ∧ r.report ≠ none ∧ r.summary ≠ none ∨
        r.status = .failed ∧ r.error ≠ none) := by
  have hbody : Leads (· = { project }) (body c files project)
      (fun _ r => Along r ∧ r.findings = Findings.merge r.rules r.model ∧ r.report ≠ none ∧ r.summary ≠ none)
      (fun r => Along r ∧ r.salvage = Findings.merge r.rules r.model) := by
    refine (Leads.body (I := fun _ r => Along r ∧ r.findings = []) (J := fun _ r => Along r ∧ r.findings = [])
      (K := fun r => Along r ∧ r.findings = Findings.merge r.rules r.model)
      (L := fun r => Along r ∧ r.findings = Findings.merge r.rules r.model ∧ r.report ≠ none)
      project ?_ ?_ ?_ ?_ ?_ ?_ ?_ ?_ ?_).mono ?_ (fun _ _ hr => hr) fun _ hr => hr
    · exact fun f rest r s report hr _ => hr
    · exact fun r hr => hr
    · exact fun m _ f rest r s fs hr _ _ => hr
    · exact fun f rest r hr _ => hr
    · exact fun r hr => ⟨hr.1, rfl⟩
    · exact fun r a hr => hr
    · exact fun r report hr => ⟨hr.1, hr.2, by simp⟩
    · exact fun r hr => ⟨hr.1, hr.2.1, hr.2.2, by simp⟩
    · rintro r (⟨_, hr⟩ | ⟨_, hr⟩ | hr | hr | hr)
      · exact ⟨hr.1, salvage_of_nil hr.2⟩
      · exact ⟨hr.1, salvage_of_nil hr.2⟩
      · exact ⟨hr.1, salvage_of_merged hr.2⟩
      · exact ⟨hr.1, salvage_of_merged hr.2.1⟩
      · exact ⟨hr.1, salvage_of_merged hr.2.1⟩
    · rintro r rfl
      exact ⟨⟨rfl, rfl⟩, rfl⟩
  rcases of_analyze hbody h with ⟨halong, hfindings, hreport, hsummary⟩ | ⟨e, r', ⟨-, hsalvage⟩, rfl⟩
  · exact ⟨hfindings, .inl ⟨halong.1, halong.2, hreport, hsummary⟩⟩
  · exact ⟨hsalvage, .inr ⟨rfl, by simp [failed]⟩⟩

/-- Whatever fails, a run that returns has all its findings merged, and those are all that were found. It
is failed if it has an error, and has its report and its summary if it is completed. -/
theorem analyze_keeps (c : Collaborators σ) (files : List SourceFile) (project : String) {r : RunResult}
    {s s' : σ} (h : (analyze c files project).run s = (.ok r, s')) :
    r.findings = Findings.merge r.rules r.model ∧ (r.status = .failed ↔ r.error ≠ none) ∧
      (r.status = .completed → r.report ≠ none ∧ r.summary ≠ none) ∧
      (analyze c.watched files project).run (([], []), s) = (.ok r, (r.rules, r.model), s') := by
  have hwatched := mirrors_analyze c files project h
  have hr : ((analyze c files project).run s).1 = .ok r := by rw [h]
  rcases analyze_cases hr with ⟨hfindings, ⟨hstatus, herror, hparts⟩ | ⟨hstatus, herror⟩⟩
  · exact ⟨hfindings, by simp [hstatus, herror], fun _ => hparts, hwatched⟩
  · exact ⟨hfindings, by simp [hstatus, herror], by simp [hstatus], hwatched⟩

/-- A file without a tree, a review that finds something, and then no score. -/
theorem analyze_keeps_failed :
    let found : Finding :=
      ⟨.security, .high, "t", "d", "a.ts", .single 1 (by decide), none, none, .model, none, []⟩
    let c : Collaborators Unit := {
      build := fun _ _ => return .error (.runtime "no parser")
      model := some ⟨fun _ _ _ => return .ok [found], fun _ _ => return .ok none⟩
      languages := ["TypeScript"]
      score := fun _ _ => return .error (.runtime "no score")
      save := none
      progress := fun _ _ _ => return .ok () }
    ∃ r, (analyze c [⟨"a.ts", "x"⟩] "p").run () = (.ok r, ()) ∧ r.status = .failed ∧ r.error ≠ none ∧
      r.findings = [found] ∧
      (analyze c.watched [⟨"a.ts", "x"⟩] "p").run (([], []), ()) = (.ok r, ([], [found]), ()) := by
  intro found c
  have h : ∃ r, (analyze c [⟨"a.ts", "x"⟩] "p").run () = (.ok r, ()) ∧ r.status = .failed ∧
      r.rules = [] ∧ r.model = [found] := ⟨_, rfl, rfl, rfl, rfl⟩
  rcases h with ⟨r, hr, hfailed, hrules, hmodel⟩
  rcases analyze_keeps c [⟨"a.ts", "x"⟩] "p" hr with ⟨hfindings, hstatus, -, hwatched⟩
  rw [hrules, hmodel] at hfindings hwatched
  refine ⟨r, hr, hfailed, hstatus.1 hfailed, ?_, hwatched⟩
  rw [hfindings]
  simp [Findings.merge]

end Run
end CodeAudit
