import CodeAudit.Run

/-!
The steps of a run, one after the other. A step is told by what holds of the result before it, and of the
result that it leaves when it succeeds and when it fails.
-/
set_option autoImplicit false

namespace CodeAudit.Run
variable {σ α β : Type}

/-- A value and a result of `Q`, or a failure and a result of `E`. -/
def Comes (Q : α → RunResult → Prop) (E : RunResult → Prop) : Except Failure α × RunResult → Prop
  | (.ok a, r) => Q a r
  | (.error _, r) => E r

/-- From results of `P` a step leads to a value and a result of `Q`, or fails with a result of `E`. -/
def Leads (P : RunResult → Prop) (x : RunM σ α) (Q : α → RunResult → Prop) (E : RunResult → Prop) : Prop :=
  ∀ r s, P r → Comes Q E (((x.run.run r).run s).1)

variable {P : RunResult → Prop} {Q : α → RunResult → Prop} {R : β → RunResult → Prop}
  {E : RunResult → Prop} {x : RunM σ α}

def follow (f : α → RunM σ β) : (Except Failure α × RunResult) × σ → (Except Failure β × RunResult) × σ
  | ((.ok a, r), s) => ((f a).run.run r).run s
  | ((.error e, r), s) => ((.error e, r), s)

theorem run_bind (x : RunM σ α) (f : α → RunM σ β) (r : RunResult) (s : σ) :
    ((x >>= f).run.run r).run s = follow f ((x.run.run r).run s) := by
  simp only [ExceptT.run_bind, StateT.run_bind]
  change (fun p : (Except Failure α × RunResult) × σ => _) ((x.run.run r).run s) = _
  generalize (x.run.run r).run s = p
  rcases p with ⟨⟨a | a, r'⟩, s'⟩ <;> rfl

theorem run_analyzeWith (supports : String → StateM σ (Except Failure Bool))
    (build : String → String → StateM σ (Except Failure (Option Node))) (f : SourceFile) (s : σ) :
    (analyzeWith supports build f).run s =
      let p := (supports f.path).run s
      match p.1 with
      | .error e => (.error e, p.2)
      | .ok false => (.ok (.skip f), p.2)
      | .ok true =>
        let q := (build f.text f.path).run p.2
        (.ok (.ofTree f q.1), q.2) := by
  rw [analyzeWith, StateT.run_bind]
  generalize (supports f.path).run s = p
  rcases p with ⟨e | ⟨⟨⟩⟩, s'⟩ <;> rfl

/-- What is made of an answer whose failures, save those of configuration, do not matter. -/
def lenient : Except Failure α → Except Failure (Option α)
  | .ok a => .ok (some a)
  | .error (.config m) => .error (.config m)
  | .error _ => .ok none

theorem run_ask (y : StateM σ (Except Failure α)) (r : RunResult) (s : σ) :
    ((ask y).run.run r).run s = (((y.run s).1, r), (y.run s).2) := rfl

theorem run_askLenient (y : StateM σ (Except Failure α)) (r : RunResult) (s : σ) :
    ((askLenient y).run.run r).run s = ((lenient (y.run s).1, r), (y.run s).2) := by
  simp only [askLenient, ExceptT.run_mk, StateT.run_lift, StateT.run_bind]
  change (fun p : Except Failure α × σ => _) (y.run s) = _
  generalize y.run s = p
  rcases p with ⟨a | e, s'⟩
  · cases a <;> rfl
  · rfl

theorem askLenient_eq_pure {y : StateM Unit (Except Failure α)} {a : α} (h : (y.run ()).1 = .ok a) :
    askLenient y = pure (some a) := by
  funext r s
  exact (run_askLenient y r s).trans (by rw [h]; rfl)

theorem run_askFreely (y : StateM σ (Except Failure (Option α))) (r : RunResult) (s : σ) :
    ((askFreely y).run.run r).run s = ((.ok ((y.run s).1.toOption.join), r), (y.run s).2) := by
  simp only [askFreely, ExceptT.run_mk, StateT.run_lift, StateT.run_bind]
  change (fun p : Except Failure (Option α) × σ => _) (y.run s) = _
  generalize y.run s = p
  rcases p with ⟨a | e, s'⟩ <;> rfl

namespace Leads

theorem pure {a : α} (h : ∀ r, P r → Q a r) : Leads P (Pure.pure a : RunM σ α) Q E :=
  fun r _ hr => h r hr

theorem bind {f : α → RunM σ β} (hx : Leads P x Q E) (hf : ∀ a, Leads (Q a) (f a) R E) :
    Leads P (x >>= f) R E := by
  intro r s hr
  have hcomes := hx r s hr
  rw [run_bind]
  generalize (x.run.run r).run s = p at hcomes ⊢
  rcases p with ⟨⟨e | a, r'⟩, s'⟩
  · exact hcomes
  · exact hf a r' s' hcomes

theorem mono {P' : RunResult → Prop} {Q' : α → RunResult → Prop} {E' : RunResult → Prop}
    (h : Leads P x Q E) (hP : ∀ r, P' r → P r) (hQ : ∀ a r, Q a r → Q' a r) (hE : ∀ r, E r → E' r) :
    Leads P' x Q' E' := by
  intro r s hr
  have hcomes := h r s (hP r hr)
  generalize (x.run.run r).run s = p at hcomes ⊢
  rcases p with ⟨⟨e | a, r'⟩, s'⟩
  · exact hE r' hcomes
  · exact hQ a r' hcomes

theorem modify {Q : RunResult → Prop} {g : RunResult → RunResult} (h : ∀ r, P r → Q (g r)) :
    Leads P (modify g : RunM σ Unit) (fun _ => Q) E :=
  fun r _ hr => h r hr

theorem get {Q : RunResult → RunResult → Prop} (h : ∀ r, P r → Q r r) :
    Leads P (get : RunM σ RunResult) Q E :=
  fun r _ hr => h r hr

theorem ask {y : StateM σ (Except Failure α)}
    (h : ∀ r s a, P r → (y.run s).1 = .ok a → Q a r) (he : ∀ r, P r → E r) : Leads P (ask y) Q E := by
  intro r s hr
  rw [run_ask]
  cases hy : (y.run s).1 with
  | ok a => exact h r s a hr hy
  | error e => exact he r hr

theorem askLenient {Q : Option α → RunResult → Prop} {y : StateM σ (Except Failure α)}
    (h : ∀ r s a, P r → (y.run s).1 = .ok a → Q (some a) r)
    (hn : ∀ r s e, P r → (y.run s).1 = .error e → Q none r) (he : ∀ r, P r → E r) :
    Leads P (askLenient y) Q E := by
  intro r s hr
  rw [run_askLenient]
  cases hy : (y.run s).1 with
  | ok a => exact h r s a hr hy
  | error e =>
    cases e with
    | config m => exact he r hr
    | _ => exact hn r s _ hr hy

theorem askFreely {Q : Option α → RunResult → Prop} {y : StateM σ (Except Failure (Option α))}
    (h : ∀ r a, P r → Q a r) : Leads P (askFreely y) Q E := by
  intro r s hr
  rw [run_askFreely]
  exact h r _ hr

theorem announce {c : Collaborators σ} {p : Phase} {message : String} (he : ∀ r, P r → E r) :
    Leads P (announce c p message) (fun _ => P) E :=
  ask (fun _ _ _ hr _ => hr) he

theorem runRulesOn {c : Collaborators σ} {I : List SourceFile → RunResult → Prop}
    (h : ∀ f rest r s report, I (f :: rest) r →
      ((analyzeWith c.supports c.build f).run s).1 = .ok report → I rest (r.addFile report))
    (he : ∀ fs r, I fs r → E r) (files : List SourceFile) :
    Leads (I files) (runRulesOn c files) (fun _ => I []) E := by
  induction files with
  | nil => exact pure fun _ hr => hr
  | cons f rest ih =>
    refine bind (ask (Q := fun report r => I rest (r.addFile report)) ?_ fun r hr => he _ r hr) ?_
    · exact fun r s report hr hreport => h f rest r s report hr hreport
    · exact fun report => bind (modify fun r hr => hr) fun _ => ih

theorem reviewFiles {c : Collaborators σ} {m : ModelSide σ} {I : List SourceFile → RunResult → Prop}
    (h : ∀ f rest r s fs, I (f :: rest) r → isReviewed c.languages f →
      ((m.review f.path f.text f.language.name).run s).1 = .ok fs → I rest (r.addReviewed fs))
    (hn : ∀ f rest r, I (f :: rest) r → (isReviewed c.languages f →
      ∃ s e, ((m.review f.path f.text f.language.name).run s).1 = .error e) → I rest r)
    (he : ∀ fs r, I fs r → E r) (total n : Nat) (files : List SourceFile) :
    Leads (I files) (reviewFiles c m total n files) (fun _ => I []) E := by
  induction files generalizing n with
  | nil => exact pure fun _ hr => hr
  | cons f rest ih =>
    -- What follows the review of a file is the same, whether there is one or not.
    have hrest : Leads (I rest) (do
        Run.ask (c.progress .review (reviewPercent (n + 1) total) s!"Reviewed {n + 1}/{total} files")
        Run.reviewFiles c m total (n + 1) rest) (fun _ => I []) E :=
      bind (ask (Q := fun _ => I rest) (fun _ _ _ hr _ => hr) fun r hr => he _ r hr) fun _ => ih (n + 1)
    unfold Run.reviewFiles
    by_cases hreviewed : isReviewed c.languages f = true
    · simp only [hreviewed, if_true]
      refine bind (askLenient (Q := fun fs r => I rest (fs.elim r (r.addReviewed ·))) ?_ ?_
        fun r hr => he _ r hr) fun fs => ?_
      · exact fun r s fs hr hfs => h f rest r s fs hr hreviewed hfs
      · exact fun r s e hr hfs => hn f rest r hr fun _ => ⟨s, e, hfs⟩
      · cases fs with
        | none => exact hrest
        | some fs => exact bind (modify fun r hr => hr) fun _ => hrest
    · simp only [hreviewed]
      exact hrest.mono (fun r hr => hn f rest r hr fun hf => absurd hf hreviewed) (fun _ _ hr => hr)
        fun _ hr => hr

section

variable {c : Collaborators σ} {files : List SourceFile} {I J : List SourceFile → RunResult → Prop}
  {K L M : RunResult → Prop} (project : String)
  (hrules : ∀ f rest r s report, I (f :: rest) r →
    ((analyzeWith c.supports c.build f).run s).1 = .ok report → I rest (r.addFile report))
  (hstart : ∀ r, I [] r → J files r)
  (hreview : ∀ m, c.model = some m → ∀ f rest r s fs, J (f :: rest) r → isReviewed c.languages f →
    ((m.review f.path f.text f.language.name).run s).1 = .ok fs → J rest (r.addReviewed fs))
  (hnone : ∀ f rest r, J (f :: rest) r → (isReviewed c.languages f → ∀ m, c.model = some m →
    ∃ s e, ((m.review f.path f.text f.language.name).run s).1 = .error e) → J rest r)
  (hmerge : ∀ r, J [] r → K { r with findings := Findings.merge r.rules r.model })
  (harchitecture : ∀ r a, K r → K { r with architecture := a })
include hrules hstart hreview hnone hmerge harchitecture

/-- A run as a whole: what the rules and the model preserve from file to file, and what holds after the
findings are merged, after they are scored and after the summary. -/
theorem body_scored
    (hreport : ∀ r report a s, K r → ((c.score r.findings a).run s).1 = .ok report → L { r with report := some report })
    (hsummary : ∀ r, L r → M { r with summary := some (Summary.of r.rules r.model files) })
    (hE : ∀ r, (∃ fs, I fs r) ∨ (∃ fs, J fs r) ∨ K r ∨ L r ∨ M r → E r) :
    Leads (I files) (body c files project) (fun _ => M) E := by
  have hI (fs : List SourceFile) (r : RunResult) (hr : I fs r) : E r := hE r (.inl ⟨fs, hr⟩)
  have hJ (fs : List SourceFile) (r : RunResult) (hr : J fs r) : E r := hE r (.inr (.inl ⟨fs, hr⟩))
  have hK (r : RunResult) (hr : K r) : E r := hE r (.inr (.inr (.inl hr)))
  have hL (r : RunResult) (hr : L r) : E r := hE r (.inr (.inr (.inr (.inl hr))))
  have hM (r : RunResult) (hr : M r) : E r := hE r (.inr (.inr (.inr (.inr hr))))
  have hreviewed : Leads (J files) (review c files) (fun _ => J []) E := by
    unfold Run.review
    split
    · rename_i hm
      -- Nothing is done without a model, but the invariant has to get through the files all the same.
      suffices hall : ∀ fs r, J fs r → J [] r from pure (hall files)
      intro fs r hr
      induction fs with
      | nil => exact hr
      | cons f rest ih => exact ih (hnone f rest r hr fun _ m hm' => by cases hm.symm.trans hm')
    · rename_i m hm
      refine reviewFiles (hreview m hm) (fun f rest r hr hfailed => hnone f rest r hr fun hf m' hm' => ?_) hJ _ _ _
      cases hm.symm.trans hm'
      exact hfailed hf
  have hassessed : Leads K (assess c files project) (fun _ => K) E := by
    unfold Run.assess
    split
    · exact pure fun r hr => hr
    · exact askFreely fun r a hr => hr
  have hsaved (fs : List Finding) (report : Report) : Leads L (save c fs report) (fun _ => L) E := by
    unfold Run.save
    split
    · exact pure fun r hr => hr
    · exact ask (fun r s a hr _ => hr) hL
  unfold Run.body
  refine bind (announce (hI files)) fun _ => ?_
  refine bind (runRulesOn hrules hI files) fun _ => ?_
  refine bind (get (Q := fun _ => I []) fun r hr => hr) fun _ => ?_
  refine bind (announce (hI [])) fun _ => ?_
  refine bind (hreviewed.mono hstart (fun _ _ hr => hr) fun _ hr => hr) fun _ => ?_
  refine bind (get (Q := fun _ => J []) fun r hr => hr) fun _ => ?_
  refine bind (announce (hJ [])) fun _ => ?_
  refine bind (modify hmerge) fun _ => ?_
  refine bind (get (Q := fun _ => K) fun r hr => hr) fun _ => ?_
  refine bind (announce hK) fun _ => ?_
  refine bind hassessed fun insights => ?_
  refine bind (modify fun r hr => harchitecture r insights hr) fun _ => ?_
  refine bind (announce hK) fun _ => ?_
  refine bind (get (Q := fun r' r => K r ∧ r.findings = r'.findings) fun r hr => ⟨hr, rfl⟩) fun r' => ?_
  refine bind (ask (Q := fun report r => L { r with report := some report }) ?_ fun r hr => hK r hr.1) fun report => ?_
  · rintro r s report ⟨hr, hfindings⟩ hscore
    exact hreport r report _ s hr (hfindings ▸ hscore)
  refine bind (modify fun r hr => hr) fun _ => ?_
  refine bind (hsaved _ report) fun _ => ?_
  refine bind (announce hL) fun _ => ?_
  refine bind (modify hsummary) fun _ => ?_
  exact announce hM

theorem body (hreport : ∀ r report, K r → L { r with report := some report })
    (hsummary : ∀ r, L r → M { r with summary := some (Summary.of r.rules r.model files) })
    (hE : ∀ r, (∃ fs, I fs r) ∨ (∃ fs, J fs r) ∨ K r ∨ L r ∨ M r → E r) :
    Leads (I files) (Run.body c files project) (fun _ => M) E :=
  body_scored project hrules hstart hreview hnone hmerge harchitecture (fun r report _ _ hr _ => hreport r report hr)
    hsummary hE

end

end Leads

theorem run_analyze (c : Collaborators σ) (files : List SourceFile) (project : String) (s : σ) :
    (analyze c files project).run s =
      let p := (c.progress .started Phase.started.percent s!"Starting analysis of {project}").run s
      match p.1 with
      | .error e => (.error e, p.2)
      | .ok () =>
        let q := ((body c files project).run.run { project }).run p.2
        (finish c q.1).run q.2 := by
  rw [analyze, StateT.run_bind]
  generalize (c.progress .started Phase.started.percent s!"Starting analysis of {project}").run s = p
  rcases p with ⟨e | -, s'⟩ <;> rfl

theorem run_finish (c : Collaborators σ) {e : Failure} (he : e.isConfig = false) (r : RunResult) (s : σ) :
    (finish c (.error e, r)).run s =
      let p := (c.progress .failed Phase.failed.percent ((failed e r).error.getD "")).run s
      (p.1.map fun _ => failed e r, p.2) := by
  simp only [finish, he, Bool.false_eq_true, if_false, StateT.run_bind]
  generalize (c.progress .failed Phase.failed.percent ((failed e r).error.getD "")).run s = p
  rcases p with ⟨e | -, s'⟩ <;> rfl

theorem of_analyze {c : Collaborators σ} {files : List SourceFile} {project : String}
    {Q : Unit → RunResult → Prop} (h : Leads (· = { project }) (body c files project) Q E) {r : RunResult}
    {s : σ} (hr : ((analyze c files project).run s).1 = .ok r) :
    Q () r ∨ ∃ e r', E r' ∧ r = failed e r' := by
  rw [run_analyze] at hr
  dsimp only at hr
  split at hr
  · cases hr
  · generalize ((c.progress .started _ _).run s).2 = s' at hr
    have hcomes := h { project } s' rfl
    generalize ((body c files project).run.run { project }).run s' = q at hcomes hr
    rcases q with ⟨⟨e | ⟨⟩, r'⟩, s''⟩
    · cases he : e.isConfig with
      | true =>
        simp [finish, he] at hr
      | false =>
        rw [run_finish c he] at hr
        refine .inr ⟨e, r', hcomes, ?_⟩
        dsimp only at hr
        generalize ((c.progress .failed _ _).run s'').1 = o at hr
        cases o with
        | ok a => exact (Except.ok.inj hr).symm
        | error e => cases hr
    · cases hr
      exact .inl hcomes

end CodeAudit.Run
