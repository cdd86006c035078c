import CodeAudit.Proofs.Architecture.Answer
import CodeAudit.Proofs.Review.Gathered
import CodeAudit.Proofs.Run.Progress
import CodeAudit.Proofs.Score.Defined

set_option autoImplicit false

namespace CodeAudit

/-- No answer, or one in which neither a list nor an object begins. -/
def Reply.Void (r : Reply) : Prop := ∀ v, r = .content v → ∃ t, r.text? = some t ∧ '[' ∉ t ∧ '{' ∉ t

theorem Reply.Void.cases {r : Reply} (h : r.Void) :
    r = .silence ∨ (∃ e, r = .failure e) ∨ ∃ t, r.text? = some t ∧ '[' ∉ t ∧ '{' ∉ t := by
  cases r with
  | silence => exact .inl rfl
  | failure e => exact .inr (.inl ⟨e, rfl⟩)
  | content v => exact .inr (.inr (h v rfl))

theorem Outcome.ofReply_void {reply : Reply} (h : reply.Void) (limit : Nat) (timeout : Seconds) (c : Chunk)
    (path : String) : ∃ fault message, ofReply limit timeout c path reply = .ok (.failed fault message) := by
  obtain rfl | ⟨e, rfl⟩ | ⟨t, ht, hlist, -⟩ := h.cases
  · exact ⟨_, _, rfl⟩
  · rw [ofReply]
    cases e.isTimeout
    · exact ⟨_, _, rfl⟩
    · exact ⟨_, _, rfl⟩
  · rw [ofReply_text ht, ofText, Answer.issues_eq_noList_iff.2 hlist]
    exact ⟨_, _, rfl⟩

namespace Reviewer
variable {σ : Type} {r : Reviewer} {w : World σ} {path language : String}

theorem heard_void {prompt : String} {s : σ} (hw : ((w.call prompt).run s).1.reply.Void) :
    (r.heard w prompt s).Void := by
  unfold heard
  split
  · exact fun v hv => by cases hv
  · split
    · exact fun v hv => by cases hv
    · exact hw

theorem gathered_failed {xs : List (Except Failure Outcome)}
    (h : ∀ x ∈ xs, ∃ fault message, x = .ok (.failed fault message)) : gathered xs = .ok [] := by
  induction xs with
  | nil => rfl
  | cons x xs ih =>
    obtain ⟨fault, message, rfl⟩ := h x List.mem_cons_self
    rw [gathered, ih fun x hx => h x (List.mem_cons_of_mem _ hx)]
    rfl

theorem reviewFile_void (hw : ∀ prompt s, ((w.call prompt).run s).1.reply.Void) (text : String) (s : σ) :
    ((r.reviewFile w path text language).run s).1 = .ok [] := by
  obtain ⟨xs, hxs, hrun, -⟩ := reviewBatches_gathers r w path language
    (batches r.maxConcurrent.toNat (Chunk.split r.window text)) s
  rw [reviewFile_run, hrun, gathered_failed fun x hx => ?_]
  · rfl
  · obtain ⟨c, -, s', rfl⟩ := exists_of_mem_right hxs hx
    rw [reviewChunk_eq]
    exact Outcome.ofReply_void (heard_void (hw _ s')) _ _ _ _

end Reviewer

namespace Architecture
variable {σ : Type}

theorem ofReply_text {limit : Nat} {reply : Reply} {t : List Char} (h : reply.text? = some t) :
    ofReply limit reply = ofText limit t := by
  match reply with
  | .content (.string s) =>
    cases h
    rfl
  | .content .null | .content (.bool _) | .content (.int _) | .content (.float _)
  | .content (.array _) | .content (.object _) =>
    simp only [Reply.text?] at h
    split at h
    · cases h
    · cases h
      simp [ofReply, *]

theorem ofReply_void {limit : Nat} {reply : Reply} (h : reply.Void) :
    (ofReply limit reply).toOption.join = none := by
  obtain rfl | ⟨e, rfl⟩ | ⟨t, ht, -, hobject⟩ := h.cases
  · rfl
  · rfl
  · rw [ofReply_text ht]
    exact ofText_of_not_brace hobject

theorem assess_void {w : World σ} (hw : ∀ prompt s, ((w.call prompt).run s).1.reply.Void) (timeout : Seconds)
    (files : List SourceFile) (project : String) (s : σ) :
    ((assess timeout w files project).run s).1.toOption.join = none := by
  unfold assess Reviewer.ask
  split
  · rfl
  · split
    · rfl
    · exact ofReply_void (hw _ s)

end Architecture

namespace Run
variable {σ α β : Type}

/-- Both steps end alike, whatever has happened outside before either. -/
def Alike (x y : RunM σ α) : Prop := ∀ r s s', ((x.run.run r).run s).1 = ((y.run.run r).run s').1

namespace Alike

theorem bind {x y : RunM σ α} {f g : α → RunM σ β} (h : Alike x y) (hf : ∀ a, Alike (f a) (g a)) :
    Alike (x >>= f) (y >>= g) := by
  intro r s s'
  have hxy := h r s s'
  rw [run_bind, run_bind]
  generalize (x.run.run r).run s = p at hxy
  generalize (y.run.run r).run s' = q at hxy
  obtain ⟨⟨e | a, r'⟩, t⟩ := p
  · obtain ⟨_, t'⟩ := q
    cases hxy
    rfl
  · obtain ⟨_, t'⟩ := q
    cases hxy
    exact hf a r' t t'

theorem after {x : RunM σ α} {f g : α → RunM σ β}
    (hf : ∀ a r s, (((f a).run.run r).run s).1 = (((g a).run.run r).run s).1) (r : RunResult) (s : σ) :
    (((x >>= f).run.run r).run s).1 = (((x >>= g).run.run r).run s).1 := by
  rw [run_bind, run_bind]
  generalize (x.run.run r).run s = p
  obtain ⟨⟨e | a, r'⟩, s'⟩ := p
  · rfl
  · exact hf a r' s'

theorem pure (a : α) : Alike (Pure.pure a : RunM σ α) (Pure.pure a) := fun _ _ _ => rfl

theorem get : Alike (get : RunM σ RunResult) get := fun _ _ _ => rfl

theorem addNothing : Alike (modify (RunResult.addReviewed []) : RunM σ Unit) (Pure.pure ()) := by
  intro r s s'
  change (Except.ok (), r.addReviewed []) = (Except.ok (), r)
  rw [RunResult.addReviewed, List.append_nil]

theorem modify (g : RunResult → RunResult) : Alike (modify g : RunM σ Unit) (modify g) := fun _ _ _ => rfl

theorem ask {x : StateM σ (Except Failure α)} (h : ∀ s s', (x.run s).1 = (x.run s').1) :
    Alike (ask x) (ask x) := by
  intro r s s'
  rw [run_ask, run_ask, h s s']

variable {c : Collaborators σ}

theorem announce (hsink : Listens c) (p : Phase) (message : String) :
    Alike (announce c p message) (announce c p message) :=
  ask fun s s' => (hsink _ _ _ s).trans (hsink _ _ _ s').symm

theorem skip {x : RunM σ α} {a : α} {f : α → RunM σ β} {z : RunM σ β} (h : Alike x (Pure.pure a))
    (hf : Alike (f a) z) : Alike (x >>= f) z := by
  intro r s s'
  have hx := h r s s'
  rw [run_bind]
  generalize (x.run.run r).run s = p at hx
  obtain ⟨_, t⟩ := p
  cases hx
  exact hf r t s'

theorem reviewFiles {m : ModelSide σ} (hsink : Listens c)
    (hm : ∀ path text language s, ((m.review path text language).run s).1 = .ok []) (total done : Nat)
    (files : List SourceFile) : Alike (reviewFiles c m total done files) (Pure.pure ()) := by
  induction files generalizing done with
  | nil => exact pure ()
  | cons f rest ih =>
    have hreview : Alike (askLenient (m.review f.path f.text f.language.name)) (Pure.pure (some [])) := by
      intro r s s'
      rw [run_askLenient, hm]
      rfl
    have htold : Alike
        (Run.ask (c.progress .review (reviewPercent (done + 1) total) s!"Reviewed {done + 1}/{total} files"))
        (Pure.pure ()) := by
      intro r s s'
      rw [run_ask, hsink]
      rfl
    have hrest := htold.skip (f := fun _ => Run.reviewFiles c m total (done + 1) rest) (ih (done + 1))
    unfold Run.reviewFiles
    split
    · exact hreview.skip (addNothing.skip hrest)
    · exact hrest

end Alike

variable {c : Collaborators σ} {m : ModelSide σ}

def unaided (c : Collaborators σ) : Collaborators σ := { c with model := none }

theorem runRulesOn_unaided (c : Collaborators σ) (files : List SourceFile) :
    runRulesOn (unaided c) files = runRulesOn c files := by
  induction files with
  | nil => rfl
  | cons f rest ih =>
    rw [runRulesOn, runRulesOn, ih]
    rfl

/-- Reviews find nothing and do not fail, and there is never an assessment. -/
structure Idle (m : ModelSide σ) : Prop where
  review : ∀ path text language s, ((m.review path text language).run s).1 = .ok []
  assess : ∀ files project s, ((m.assess files project).run s).1.toOption.join = none

/-- Sink and store do not fail, and a report is a matter of the findings and the assessment alone. -/
structure Reliable (c : Collaborators σ) : Prop where
  sink : Listens c
  score : ∀ fs a s, ((c.score fs a).run s).1 = Report.of fs a
  save : ∀ save, c.save = some save → ∀ fs r s, ((save fs r).run s).1 = .ok ()

theorem body_unaided (hm : c.model = some m) (hidle : Idle m) (hc : Reliable c) (files : List SourceFile)
    (project : String) (r : RunResult) (s : σ) :
    (((body c files project).run.run r).run s).1 = (((body (unaided c) files project).run.run r).run s).1 := by
  have hannounce (p : Phase) (message : String) : Alike (announce c p message) (announce (unaided c) p message) :=
    .announce hc.sink p message
  have hreview : Alike (review c files) (review (unaided c) files) := by
    unfold review
    rw [hm]
    exact .reviewFiles hc.sink hidle.review _ 0 files
  have hassess : Alike (assess c files project) (assess (unaided c) files project) := by
    intro r s s'
    unfold assess
    rw [hm, run_askFreely, hidle.assess]
    rfl
  have hscore (fs : List Finding) (a : Option Assessment) : Alike (ask (c.score fs a)) (ask ((unaided c).score fs a)) :=
    .ask fun s s' => (hc.score fs a s).trans (hc.score fs a s').symm
  have hsave (fs : List Finding) (report : Report) : Alike (save c fs report) (save (unaided c) fs report) := by
    unfold save
    cases h : c.save with
    | none =>
      simp only [unaided, h]
      exact .pure ()
    | some f =>
      simp only [unaided, h]
      exact .ask fun s s' => (hc.save f h _ _ s).trans (hc.save f h _ _ s').symm
  unfold body
  -- Until the rules are done the two runs are the same.
  refine Alike.after (fun _ => ?_) r s
  rw [runRulesOn_unaided]
  refine Alike.after fun _ => Alike.after fun r => Alike.after fun _ r s => ?_
  refine (hreview.bind fun _ => ?_) r s s
  refine Alike.get.bind fun r => (hannounce _ _).bind fun _ => ?_
  refine (Alike.modify _).bind fun _ => ?_
  refine Alike.get.bind fun r => (hannounce _ _).bind fun _ => ?_
  refine hassess.bind fun insights => ?_
  refine (Alike.modify _).bind fun _ => (hannounce _ _).bind fun _ => ?_
  refine Alike.get.bind fun r => (hscore _ _).bind fun report => ?_
  refine (Alike.modify _).bind fun _ => ?_
  refine (hsave _ _).bind fun _ => (hannounce _ _).bind fun _ => ?_
  exact (Alike.modify _).bind fun _ => hannounce _ _

def ended : Except Failure Unit × RunResult → Except Failure RunResult
  | (.ok (), r) => .ok r
  | (.error e, r) => if e.isConfig then .error e else .ok (failed e r)

theorem analyze_ended (hsink : Listens c) (files : List SourceFile) (project : String) (s : σ) :
    ((analyze c files project).run s).1 = ended (((body c files project).run.run { project }).run
      ((c.progress .started Phase.started.percent s!"Starting analysis of {project}").run s).2).1 := by
  rw [run_analyze]
  dsimp only
  rw [hsink]
  dsimp only
  generalize ((body c files project).run.run { project }).run _ = p
  obtain ⟨⟨e | ⟨⟩, r⟩, s'⟩ := p
  · cases he : e.isConfig with
    | true =>
      simp only [finish, ended, he, if_true]
      rfl
    | false =>
      rw [run_finish c he]
      dsimp only
      rw [hsink, ended, he]
      rfl
  · rfl

theorem analyze_of_leads {Q : Unit → RunResult → Prop} {files : List SourceFile} {project : String}
    (h : Leads (· = { project }) (body c files project) Q fun _ => False) (hsink : Listens c) (s : σ) :
    ∃ r, ((analyze c files project).run s).1 = .ok r ∧ Q () r := by
  rw [analyze_ended hsink]
  generalize ((c.progress .started _ _).run s).2 = s'
  have hcomes := h { project } s' rfl
  generalize ((body c files project).run.run { project }).run s' = p at hcomes
  obtain ⟨⟨e | ⟨⟩, r⟩, s''⟩ := p
  · exact hcomes.elim
  · exact ⟨r, rfl, hcomes⟩

theorem analyze_unaided (hm : c.model = some m) (hidle : Idle m) (hc : Reliable c) (files : List SourceFile)
    (project : String) (s : σ) :
    ((analyze c files project).run s).1 = ((analyze (unaided c) files project).run s).1 := by
  have hsink : Listens (unaided c) := hc.sink
  rw [analyze_ended hc.sink, analyze_ended hsink, body_unaided hm hidle hc]
  rfl

theorem Leads.answered {P : RunResult → Prop} {Q : α → RunResult → Prop} {E : RunResult → Prop}
    {y : StateM σ (Except Failure α)} (h : ∀ r s, P r → ∃ a, (y.run s).1 = .ok a ∧ Q a r) :
    Leads P (Run.ask y) Q E := by
  intro r s hr
  obtain ⟨a, ha, hq⟩ := h r s hr
  rw [run_ask, ha]
  exact hq

structure Static (r : RunResult) : Prop where
  status : r.status = .completed
  model : r.model = []
  architecture : r.architecture = none
  measured : ∀ f ∈ r.rules, f.Measured

theorem Static.merged {r : RunResult} (h : Static r) : ∀ f ∈ Findings.merge r.rules r.model, f.Measured := by
  intro f hf
  rw [h.model, Findings.merge, List.append_nil, List.mem_mergeSort] at hf
  exact h.measured f hf

theorem measured_ofTree {f : SourceFile} {t : Except Failure (Option Node)}
    (ht : ∀ root, t = .ok (some root) → (Parsed.of f.path f.text root).Measurable) :
    ∀ g ∈ (FileReport.ofTree f t).findings, g.Measured := by
  intro g hg
  unfold FileReport.ofTree at hg
  split at hg
  · cases found_runRules hg with
    | inl hg => exact hg.measured (ht _ rfl)
    | inr hg => exact Rule.complexFile_measured hg
  · cases hg

theorem leads_rules {E : RunResult → Prop} (hsupports : ∀ path s, ∃ b, ((c.supports path).run s).1 = .ok b)
    {files : List SourceFile}
    (hbuild : ∀ f ∈ files, ∀ s root, ((c.build f.text f.path).run s).1 = .ok (some root) →
      (Parsed.of f.path f.text root).Measurable) :
    Leads Static (runRulesOn c files) (fun _ => Static) E := by
  induction files with
  | nil => exact .pure fun r hr => hr
  | cons f rest ih =>
    refine Leads.bind (Leads.answered (Q := fun report r => Static r ∧ ∀ g ∈ report.findings, g.Measured)
      fun r s hr => ?_) fun report => ?_
    · obtain ⟨b, hb⟩ := hsupports f.path s
      rw [run_analyzeWith]
      dsimp only
      rw [hb]
      cases b with
      | false => exact ⟨_, rfl, hr, fun g hg => by cases hg⟩
      | true => exact ⟨_, rfl, hr, measured_ofTree fun root hroot => hbuild f List.mem_cons_self _ root hroot⟩
    · refine Leads.bind (Leads.modify (Q := Static) fun r hr => ?_)
        fun _ => ih fun f hf => hbuild f (List.mem_cons_of_mem _ hf)
      exact ⟨hr.1.status, hr.1.model, hr.1.architecture,
        fun g hg => (List.mem_append.1 hg).elim (hr.1.measured g) (hr.2 g)⟩

theorem leads_unaided (hc : Reliable c) (hsupports : ∀ path s, ∃ b, ((c.supports path).run s).1 = .ok b)
    {files : List SourceFile}
    (hbuild : ∀ f ∈ files, ∀ s root, ((c.build f.text f.path).run s).1 = .ok (some root) →
      (Parsed.of f.path f.text root).Measurable) (project : String) :
    Leads (· = { project }) (body (unaided c) files project)
      (fun _ r => Static r ∧ r.report ≠ none ∧ r.summary ≠ none) fun _ => False := by
  have hannounce {P : RunResult → Prop} (p : Phase) (message : String) :
      Leads P (announce (unaided c) p message) (fun _ => P) fun _ => False :=
    .answered fun r s hr => ⟨(), hc.sink _ _ _ s, hr⟩
  have hsave (fs : List Finding) (report : Report) {P : RunResult → Prop} :
      Leads P (save (unaided c) fs report) (fun _ => P) fun _ => False := by
    unfold save
    split
    · exact .pure fun _ hr => hr
    · rename_i f hf
      exact .answered fun r s hr => ⟨(), hc.save f hf _ _ s, hr⟩
  unfold body
  refine .bind (hannounce _ _) fun _ => ?_
  rw [runRulesOn_unaided]
  refine .bind ((leads_rules hsupports hbuild).mono ?_ (fun _ _ hr => hr) fun _ hr => hr) fun _ => ?_
  · rintro r rfl
    exact ⟨rfl, rfl, rfl, fun f hf => by cases hf⟩
  refine .bind (.get (Q := fun _ => Static) fun r hr => hr) fun _ => .bind (hannounce _ _) fun _ => ?_
  refine .bind (.pure (Q := fun _ => Static) fun r hr => hr) fun _ => ?_
  refine .bind (.get (Q := fun _ => Static) fun r hr => hr) fun _ => .bind (hannounce _ _) fun _ => ?_
  refine .bind (.modify (Q := fun r => Static r ∧ ∀ f ∈ r.findings, f.Measured) fun r hr => ?_) fun _ => ?_
  · exact ⟨⟨hr.status, hr.model, hr.architecture, hr.measured⟩, hr.merged⟩
  refine .bind (.get (Q := fun _ r => Static r ∧ ∀ f ∈ r.findings, f.Measured) fun r hr => hr) fun _ => ?_
  refine .bind (hannounce _ _) fun _ => ?_
  refine .bind (.pure (Q := fun a r => a = none ∧ Static r ∧ ∀ f ∈ r.findings, f.Measured)
    fun r hr => ⟨rfl, hr⟩) fun a => ?_
  refine .bind (.modify (Q := fun r => Static r ∧ ∀ f ∈ r.findings, f.Measured) ?_) fun _ => ?_
  · rintro r ⟨rfl, hr, hfindings⟩
    exact ⟨⟨hr.status, hr.model, rfl, hr.measured⟩, hfindings⟩
  refine .bind (hannounce _ _) fun _ => ?_
  refine .bind (.get (Q := fun r' r => Static r ∧ ∀ f ∈ r'.findings, f.Measured) fun r hr => hr) fun r' => ?_
  refine .bind (.answered (Q := fun _ => Static) fun r s hr => ?_) fun report => ?_
  · obtain ⟨report, hreport⟩ := Report.of_defined hr.2 (a.map .insights)
    exact ⟨report, (hc.score _ _ s).trans hreport, hr.1⟩
  refine .bind (.modify (Q := fun r => Static r ∧ r.report ≠ none) fun r hr => ?_) fun _ => ?_
  · exact ⟨⟨hr.status, hr.model, hr.architecture, hr.measured⟩, Option.some_ne_none _⟩
  refine .bind (hsave _ _) fun _ => .bind (hannounce _ _) fun _ => ?_
  refine .bind (.modify (Q := fun r => Static r ∧ r.report ≠ none ∧ r.summary ≠ none) fun r hr => ?_)
    fun _ => hannounce _ _
  exact ⟨⟨hr.1.status, hr.1.model, hr.1.architecture, hr.1.measured⟩, hr.2, Option.some_ne_none _⟩

theorem analyze_idle (hm : c.model = some m) (hidle : Idle m) (hc : Reliable c)
    (hsupports : ∀ path s, ∃ b, ((c.supports path).run s).1 = .ok b) {files : List SourceFile}
    (hbuild : ∀ f ∈ files, ∀ s root, ((c.build f.text f.path).run s).1 = .ok (some root) →
      (Parsed.of f.path f.text root).Measurable) (project : String) (s : σ) :
    ∃ r, ((analyze c files project).run s).1 = .ok r ∧ Static r ∧ r.report ≠ none ∧ r.summary ≠ none := by
  have hsink : Listens (unaided c) := hc.sink
  rw [analyze_unaided hm hidle hc]
  exact analyze_of_leads (leads_unaided hc hsupports hbuild project) hsink s

/-- With a model that never gives an answer of use, whichever way each of its calls ends, a run comes to what it comes
to without a model. Unless a text or a tree is vast, that is a completed result with a report and a summary. -/
theorem analyze_unanswered {reviewer : Reviewer} {timeout : Seconds} {w w' : World σ}
    (hmodel : c.model = some ⟨reviewer.reviewFile w, Architecture.assess timeout w'⟩)
    (hw : ∀ prompt s, ((w.call prompt).run s).1.reply.Void)
    (hw' : ∀ prompt s, ((w'.call prompt).run s).1.reply.Void) (hc : Reliable c)
    (hsupports : ∀ path s, ∃ b, ((c.supports path).run s).1 = .ok b) (files : List SourceFile) (project : String)
    (s : σ) :
    ((analyze c files project).run s).1 = ((analyze (unaided c) files project).run s).1 ∧
      ((∀ f ∈ files, ∀ s root, ((c.build f.text f.path).run s).1 = .ok (some root) →
          (Parsed.of f.path f.text root).Moderate) →
        ∃ r, ((analyze c files project).run s).1 = .ok r ∧ r.status = .completed ∧ r.model = [] ∧
          r.architecture = none ∧ r.report ≠ none ∧ r.summary ≠ none) := by
  have hidle : Idle (⟨reviewer.reviewFile w, Architecture.assess timeout w'⟩ : ModelSide σ) :=
    ⟨fun path text language => Reviewer.reviewFile_void hw text, fun files project =>
      Architecture.assess_void hw' timeout files project⟩
  have hsame := analyze_unaided hmodel hidle hc files project s
  refine ⟨hsame, fun hfiles => ?_⟩
  have hsink : Listens (unaided c) := hc.sink
  have hleads := leads_unaided hc hsupports (fun f hf s root hroot => (hfiles f hf s root hroot).measurable) project
  rw [hsame, analyze_ended hsink]
  generalize (((unaided c).progress .started _ _).run s).2 = s'
  have hcomes := hleads { project } s' rfl
  generalize ((body (unaided c) files project).run.run { project }).run s' = p at hcomes
  obtain ⟨⟨e | ⟨⟩, r⟩, s''⟩ := p
  · exact hcomes.elim
  · obtain ⟨hr, hreport, hsummary⟩ := hcomes
    exact ⟨r, rfl, hr.status, hr.model, hr.architecture, hreport, hsummary⟩

/-- A model that refuses its first call for want of a key, and never answers again. -/
theorem analyze_unanswered_refused :
    let reviewer : Reviewer := ⟨⟨1, 0, by decide⟩, 2, .whole 0, .whole 5, 100⟩
    let w : World Nat := ⟨fun _ n =>
      (⟨if n = 0 then .failure (.config "no key") else .silence, 0⟩, n + 1), fun _ n => ((), n),
      Script.nesting⟩
    let c : Collaborators Nat := {
      build := fun _ _ => return .ok (some ⟨"program", true, none, 0, 3, []⟩)
      model := some ⟨reviewer.reviewFile w, Architecture.assess (.whole 5) w⟩
      languages := ["TypeScript"]
      score := fun fs a => return Report.of fs a
      save := none
      progress := fun _ _ _ => return .ok () }
    ∃ r, ((analyze c [⟨"a.ts", "x\ny"⟩] "p").run 0).1 = .ok r ∧
      ((analyze (unaided c) [⟨"a.ts", "x\ny"⟩] "p").run 0).1 = .ok r ∧ r.status = .completed ∧ r.model = [] ∧
      r.report ≠ none := by
  intro reviewer w c
  have hw (prompt : String) (n : Nat) : ((w.call prompt).run n).1.reply.Void := by
    have hreply : ((w.call prompt).run n).1.reply =
        if n = 0 then .failure (.config "no key") else .silence := rfl
    rw [hreply]
    split <;> exact fun v hv => by cases hv
  have hc : Reliable c := ⟨fun _ _ _ _ => rfl, fun _ _ _ => rfl, fun _ h => by cases h⟩
  obtain ⟨hsame, hcompletes⟩ := analyze_unanswered (c := c) rfl hw hw hc (fun _ _ => ⟨_, rfl⟩)
    [⟨"a.ts", "x\ny"⟩] "p" 0
  obtain ⟨r, hr, hstatus, hmodel, -, hreport, -⟩ := hcompletes fun f hf s root hroot => by
    cases List.mem_singleton.1 hf
    cases hroot
    exact ⟨by decide +kernel, by decide +kernel⟩
  exact ⟨r, hr, hsame ▸ hr, hstatus, hmodel, hreport⟩

end Run
end CodeAudit
