import CodeAudit.Proofs.Run.Kept

/-!
The calls of a run, in their order and each with what came of it. A step that succeeds has made no call that
ends it; the last call of a step that fails is the one that does.
-/
set_option autoImplicit false

namespace CodeAudit

/-- A call to someone who takes part in a run, and what came of it. -/
inductive Call where
  | supports (path : String) (o : Except Failure Bool)
  | build (text path : String) (o : Except Failure (Option Node))
  | review (path text language : String) (o : Except Failure (List Finding))
  | assess (files : List SourceFile) (project : String) (o : Except Failure (Option Insights))
  | score (findings : List Finding) (assessment : Option Assessment) (o : Except Failure Report)
  | save (findings : List Finding) (report : Report) (o : Except Failure Unit)
  | progress (phase : Phase) (percent : Nat) (message : String) (o : Except Failure Unit)

abbrev Mark := Phase × Nat

def Phase.mark (p : Phase) : Mark := (p, p.percent)

def failure? {α : Type} : Except Failure α → Option Failure
  | .ok _ => none
  | .error e => some e

namespace Call

def failure? : Call → Option Failure
  | .supports _ o => CodeAudit.failure? o
  | .build _ _ o => CodeAudit.failure? o
  | .review _ _ _ o => CodeAudit.failure? o
  | .assess _ _ o => CodeAudit.failure? o
  | .score _ _ o => CodeAudit.failure? o
  | .save _ _ o => CodeAudit.failure? o
  | .progress _ _ _ o => CodeAudit.failure? o

/-- The failure with which the call ends the step that makes it. -/
def fatal? (call : Call) : Option Failure :=
  match call with
  | .build .. | .assess .. => none
  | .review .. => call.failure?.filter Failure.isConfig
  | _ => call.failure?

def mark? : Call → Option Mark
  | .progress p n _ _ => some (p, n)
  | _ => none

def From {σ : Type} (c : Collaborators σ) : Call → Prop
  | .supports path o => ∃ s, ((c.supports path).run s).1 = o
  | .build text path o => ∃ s, ((c.build text path).run s).1 = o
  | .review path text language o => ∃ m s, c.model = some m ∧ ((m.review path text language).run s).1 = o
  | .assess files project o => ∃ m s, c.model = some m ∧ ((m.assess files project).run s).1 = o
  | .score fs a o => ∃ s, ((c.score fs a).run s).1 = o
  | .save fs r o => ∃ f s, c.save = some f ∧ ((f fs r).run s).1 = o
  | .progress p n message o => ∃ s, ((c.progress p n message).run s).1 = o

def marks (calls : List Call) : List Mark := calls.filterMap mark?

def starting (project : String) (o : Except Failure Unit) : Call :=
  .progress .started Phase.started.percent s!"Starting analysis of {project}" o

theorem marks_append (calls new : List Call) : marks (calls ++ new) = marks calls ++ marks new :=
  List.filterMap_append

end Call

def noting {σ α : Type} (call : Except Failure α → Call) (x : StateM σ (Except Failure α)) :
    StateM (List Call × σ) (Except Failure α) := fun (calls, s) =>
  let (o, s) := x.run s
  (o, calls ++ [call o], s)

def ModelSide.traced {σ : Type} (m : ModelSide σ) : ModelSide (List Call × σ) where
  review path text language := noting (.review path text language) (m.review path text language)
  assess files project := noting (.assess files project) (m.assess files project)

def Collaborators.traced {σ : Type} (c : Collaborators σ) : Collaborators (List Call × σ) where
  supports path := noting (.supports path) (c.supports path)
  build text path := noting (.build text path) (c.build text path)
  model := c.model.map ModelSide.traced
  languages := c.languages
  score fs a := noting (.score fs a) (c.score fs a)
  save := c.save.map fun save fs r => noting (.save fs r) (save fs r)
  progress p n message := noting (.progress p n message) (c.progress p n message)

namespace Run
variable {σ α β : Type}

/-- What the calls of a step say of its end, where `plan` are the marks to come before the step and `rest` those
after it. A step that fails otherwise than by its last mark leaves some of them out. -/
inductive Account (calls : List Call) (plan rest : List Mark) : Except Failure α → Prop
  | done {a : α} (hplan : plan = Call.marks calls ++ rest) (hcalls : ∀ k ∈ calls, k.fatal? = none) :
      Account calls plan rest (.ok a)
  | stopped {e : Failure} {earlier : List Call} {last : Call} {missing : List Mark}
      (hcalls : calls = earlier ++ [last]) (hplan : plan = Call.marks calls ++ missing)
      (hearlier : ∀ k ∈ earlier, k.fatal? = none) (hlast : last.fatal? = some e)
      (hmissing : last.mark? = none → missing ≠ []) : Account calls plan rest (.error e)

theorem Account.single {call : Call} {e : Failure} {plan rest missing : List Mark}
    (hplan : plan = Call.marks [call] ++ missing) (hlast : call.fatal? = some e)
    (hmissing : call.mark? = none → missing ≠ []) : Account [call] plan rest (.error e : Except Failure α) :=
  .stopped (List.nil_append [call]).symm hplan (by simp) hlast hmissing

/-- The second step does what the first does, and the calls it writes down are an account of it. -/
def Tells (c : Collaborators σ) (x : RunM σ α) (y : RunM (List Call × σ) α) (plan rest : List Mark) : Prop :=
  ∀ r s calls, ∃ new, (y.run.run r).run (calls, s) =
      (((x.run.run r).run s).1, calls ++ new, ((x.run.run r).run s).2) ∧
    Account new plan rest ((x.run.run r).run s).1.1 ∧ ∀ k ∈ new, k.From c

variable {c : Collaborators σ} {plan rest later : List Mark}

theorem Account.trans {new new' : List Call} {a : α} {o : Except Failure β}
    (h : Account new plan rest (.ok a : Except Failure α)) (h' : Account new' rest later o) :
    Account (new ++ new') plan later o := by
  cases h with
  | done hplan hcalls =>
    cases h' with
    | done hplan' hcalls' =>
      refine .done (by rw [hplan, hplan', Call.marks_append, List.append_assoc]) fun k hk => ?_
      exact (List.mem_append.1 hk).elim (hcalls k) (hcalls' k)
    | stopped hcalls' hplan' hearlier hlast hmissing =>
      refine .stopped (by rw [hcalls', List.append_assoc])
        (by rw [hplan, hplan', Call.marks_append, List.append_assoc]) (fun k hk => ?_) hlast hmissing
      exact (List.mem_append.1 hk).elim (hcalls k) (hearlier k)

namespace Tells

theorem pure (a : α) : Tells c (Pure.pure a) (Pure.pure a) plan plan := fun r s calls =>
  ⟨[], by rw [List.append_nil]; rfl, .done rfl (by simp), by simp⟩

theorem bind {x : RunM σ α} {y : RunM (List Call × σ) α} {f : α → RunM σ β}
    {g : α → RunM (List Call × σ) β} (h : Tells c x y plan rest) (hf : ∀ a, Tells c (f a) (g a) rest later) :
    Tells c (x >>= f) (y >>= g) plan later := by
  intro r s calls
  obtain ⟨new, hy, haccount, hfrom⟩ := h r s calls
  rw [run_bind, run_bind, hy]
  generalize (x.run.run r).run s = p at haccount
  obtain ⟨⟨e | a, r'⟩, s'⟩ := p
  · cases haccount with
    | stopped hcalls hplan hearlier hlast hmissing =>
      exact ⟨new, rfl, .stopped hcalls hplan hearlier hlast hmissing, hfrom⟩
  · obtain ⟨new', hg, haccount', hfrom'⟩ := hf a r' s' (calls ++ new)
    refine ⟨new ++ new', ?_, haccount.trans haccount', fun k hk => ?_⟩
    · rw [← List.append_assoc]
      exact hg
    · exact (List.mem_append.1 hk).elim (hfrom k) (hfrom' k)

theorem get : Tells c get get plan plan := fun r s calls =>
  ⟨[], by rw [List.append_nil]; rfl, .done rfl (by simp), by simp⟩

theorem modify (g : RunResult → RunResult) : Tells c (modify g) (modify g) plan plan := fun r s calls =>
  ⟨[], by rw [List.append_nil]; rfl, .done rfl (by simp), by simp⟩

theorem ask {x : StateM σ (Except Failure α)} {call : Except Failure α → Call}
    (hfatal : ∀ o, (call o).fatal? = failure? o) (hplan : ∀ o, plan = (call o).mark?.toList ++ rest)
    (hne : plan ≠ []) (hfrom : ∀ s, (call (x.run s).1).From c) :
    Tells c (Run.ask x) (Run.ask (noting call x)) plan rest := by
  intro r s calls
  refine ⟨[call (x.run s).1], rfl, ?_, by simpa using hfrom s⟩
  rw [run_ask]
  have hmarks (o : Except Failure α) : Call.marks [call o] = (call o).mark?.toList := by
    cases h : (call o).mark? <;> simp [Call.marks, h]
  cases hx : (x.run s).1 with
  | ok a => exact .done (by rw [hmarks, ← hplan]) (by simp [hfatal, failure?])
  | error e =>
    refine .single (by rw [hmarks, ← hplan]) (hfatal _) fun hmark => ?_
    have := hplan (.error e)
    rw [hmark] at this
    rwa [← List.nil_append rest, ← Option.toList_none, ← this]

theorem announce (p : Phase) (message : String) :
    Tells c (announce c p message) (announce c.traced p message) (p.mark :: rest) rest :=
  ask (fun _ => rfl) (fun _ => rfl) (List.cons_ne_nil _ _) fun s => ⟨s, rfl⟩

theorem review {m : ModelSide σ} (hm : c.model = some m) (hne : plan ≠ []) (f : SourceFile) :
    Tells c (askLenient (m.review f.path f.text f.language.name))
      (askLenient (m.traced.review f.path f.text f.language.name)) plan plan := by
  intro r s calls
  have hy : (m.traced.review f.path f.text f.language.name).run (calls, s) =
      (((m.review f.path f.text f.language.name).run s).1,
        calls ++ [.review f.path f.text f.language.name ((m.review f.path f.text f.language.name).run s).1],
        ((m.review f.path f.text f.language.name).run s).2) := rfl
  rw [run_askLenient, run_askLenient, hy]
  refine ⟨_, rfl, ?_, by simpa using ⟨m, s, hm, rfl⟩⟩
  cases ((m.review f.path f.text f.language.name).run s).1 with
  | ok fs => exact .done rfl (by simp [Call.fatal?, Call.failure?, failure?])
  | error e =>
    cases e with
    | config message =>
      exact .single rfl rfl fun _ => hne
    | _ => exact .done rfl (by simp [Call.fatal?, Call.failure?, failure?, Failure.isConfig])

theorem assess {m : ModelSide σ} (hm : c.model = some m) (files : List SourceFile) (project : String) :
    Tells c (askFreely (m.assess files project)) (askFreely (m.traced.assess files project)) plan plan := by
  intro r s calls
  have hy : (m.traced.assess files project).run (calls, s) =
      (((m.assess files project).run s).1, calls ++ [.assess files project ((m.assess files project).run s).1],
        ((m.assess files project).run s).2) := rfl
  rw [run_askFreely, run_askFreely, hy]
  exact ⟨_, rfl, .done rfl (by simp [Call.fatal?]), by simpa using ⟨m, s, hm, rfl⟩⟩

theorem report (hne : plan ≠ []) (f : SourceFile) :
    Tells c (Run.ask (analyzeWith c.supports c.build f))
      (Run.ask (analyzeWith c.traced.supports c.traced.build f)) plan plan := by
  intro r s calls
  rw [run_ask, run_ask, run_analyzeWith, run_analyzeWith]
  have hsupports : (c.traced.supports f.path).run (calls, s) =
      (((c.supports f.path).run s).1, calls ++ [.supports f.path ((c.supports f.path).run s).1],
        ((c.supports f.path).run s).2) := rfl
  rw [hsupports]
  have hfrom : (Call.supports f.path ((c.supports f.path).run s).1).From c := ⟨s, rfl⟩
  generalize (c.supports f.path).run s = p at hfrom
  obtain ⟨e | ⟨⟨⟩⟩, s'⟩ := p
  · exact ⟨_, rfl, .single rfl rfl fun _ => hne, by simpa using hfrom⟩
  · exact ⟨_, rfl, .done rfl (by simp [Call.fatal?, Call.failure?, failure?]), by simpa using hfrom⟩
  · refine ⟨[.supports f.path (.ok true), .build f.text f.path ((c.build f.text f.path).run s').1], ?_,
      .done rfl (by simp [Call.fatal?, Call.failure?, failure?]), ?_⟩
    · change _ = (_, calls ++ ([.supports f.path (.ok true)] ++ [_]), _)
      rw [← List.append_assoc]
      rfl
    · intro k hk
      simp only [List.mem_cons, List.not_mem_nil, or_false] at hk
      obtain rfl | rfl := hk
      · exact hfrom
      · exact ⟨s', rfl⟩

theorem runRulesOn (hne : plan ≠ []) (files : List SourceFile) :
    Tells c (runRulesOn c files) (runRulesOn c.traced files) plan plan := by
  induction files with
  | nil => exact pure ()
  | cons f rest ih => exact (report hne f).bind fun report => (modify _).bind fun _ => ih

end Tells

def fileMarks (total done n : Nat) : List Mark :=
  (List.range' (done + 1) n).map fun i => (.review, reviewPercent i total)

theorem Tells.reviewFiles {m : ModelSide σ} (hm : c.model = some m) (hne : rest ≠ []) (total done : Nat)
    (files : List SourceFile) :
    Tells c (reviewFiles c m total done files) (reviewFiles c.traced m.traced total done files)
      (fileMarks total done files.length ++ rest) rest := by
  induction files generalizing done with
  | nil => exact .pure ()
  | cons f fs ih =>
    have hmark : Tells c
        (do
          Run.ask (c.progress .review (reviewPercent (done + 1) total) s!"Reviewed {done + 1}/{total} files")
          Run.reviewFiles c m total (done + 1) fs)
        (do
          Run.ask (c.traced.progress .review (reviewPercent (done + 1) total)
            s!"Reviewed {done + 1}/{total} files")
          Run.reviewFiles c.traced m.traced total (done + 1) fs)
        (fileMarks total done (f :: fs).length ++ rest) rest :=
      .bind (.ask (fun _ => rfl) (fun _ => rfl) (by simp [hne]) fun s => ⟨s, rfl⟩) fun _ => ih (done + 1)
    unfold Run.reviewFiles
    by_cases hf : isReviewed c.languages f = true
    · simp only [Collaborators.traced, hf, if_true]
      refine (Tells.review hm (by simp [hne]) f).bind fun fs? => ?_
      cases fs? with
      | none => exact hmark
      | some found => exact (Tells.modify _).bind fun _ => hmark
    · simp only [Collaborators.traced, hf]
      exact hmark

def reviewMarks (c : Collaborators σ) (files : List SourceFile) : List Mark :=
  if c.model.isSome then fileMarks files.length 0 files.length else []

def lastMarks : List Mark :=
  [Phase.review.mark, Phase.merge.mark, Phase.architecture.mark, Phase.scoring.mark, Phase.completed.mark]

def bodyMarks (c : Collaborators σ) (files : List SourceFile) : List Mark :=
  [Phase.filesRead.mark, Phase.rules.mark] ++ (reviewMarks c files ++ lastMarks)

theorem tells_body (c : Collaborators σ) (files : List SourceFile) (project : String) :
    Tells c (body c files project) (body c.traced files project) (bodyMarks c files) [] := by
  have hmodel : c.traced.model = c.model.map ModelSide.traced := rfl
  have hreview : Tells c (review c files) (review c.traced files) (reviewMarks c files ++ lastMarks) lastMarks := by
    unfold review reviewMarks
    cases hm : c.model with
    | none =>
      simp only [hmodel, hm, Option.map_none]
      exact .pure ()
    | some m =>
      simp only [hmodel, hm, Option.map_some]
      exact .reviewFiles hm (List.cons_ne_nil _ _) _ 0 files
  have hassess {plan : List Mark} :
      Tells c (assess c files project) (assess c.traced files project) plan plan := by
    unfold assess
    cases hm : c.model with
    | none =>
      simp only [hmodel, hm, Option.map_none]
      exact .pure none
    | some m =>
      simp only [hmodel, hm, Option.map_some]
      exact .assess hm files project
  have hsave (fs : List Finding) (report : Report) {plan : List Mark} (hne : plan ≠ []) :
      Tells c (save c fs report) (save c.traced fs report) plan plan := by
    unfold save
    cases hs : c.save with
    | none =>
      simp only [Collaborators.traced, hs]
      exact .pure ()
    | some save =>
      simp only [Collaborators.traced, hs]
      exact .ask (fun _ => rfl) (fun _ => rfl) hne fun s => ⟨save, s, hs, rfl⟩
  have hscore (fs : List Finding) (a : Option Assessment) {plan : List Mark} (hne : plan ≠ []) :
      Tells c (ask (c.score fs a)) (ask (c.traced.score fs a)) plan plan :=
    .ask (fun _ => rfl) (fun _ => rfl) hne fun s => ⟨s, rfl⟩
  unfold body
  refine (Tells.announce _ _).bind fun _ => ?_
  refine (Tells.runRulesOn (List.cons_ne_nil _ _) files).bind fun _ => ?_
  refine Tells.get.bind fun r => (Tells.announce _ _).bind fun _ => ?_
  refine hreview.bind fun _ => ?_
  refine Tells.get.bind fun r => (Tells.announce _ _).bind fun _ => ?_
  refine (Tells.modify _).bind fun _ => ?_
  refine Tells.get.bind fun r => (Tells.announce _ _).bind fun _ => ?_
  refine hassess.bind fun insights => ?_
  refine (Tells.modify _).bind fun _ => (Tells.announce _ _).bind fun _ => ?_
  refine Tells.get.bind fun r => (hscore _ _ (List.cons_ne_nil _ _)).bind fun report => ?_
  refine (Tells.modify _).bind fun _ => ?_
  refine (hsave _ _ (List.cons_ne_nil _ _)).bind fun _ => (Tells.announce _ _).bind fun _ => ?_
  exact (Tells.modify _).bind fun _ => Tells.announce _ _

theorem leads_completed (c : Collaborators σ) (files : List SourceFile) (project : String) :
    Leads (·.status = .completed) (body c files project) (fun _ r => r.status = .completed) fun _ => True :=
  Leads.body (I := fun _ r => r.status = .completed) (J := fun _ r => r.status = .completed)
    (K := fun r => r.status = .completed) (L := fun r => r.status = .completed) project
    (fun _ _ _ _ _ hr _ => hr) (fun _ hr => hr) (fun _ _ _ _ _ _ _ hr _ _ => hr) (fun _ _ _ hr _ => hr)
    (fun _ hr => hr) (fun _ _ hr => hr) (fun _ _ hr => hr) (fun _ hr => hr) fun _ _ => trivial

def allMarks (c : Collaborators σ) (files : List SourceFile) : List Mark :=
  Phase.started.mark :: bodyMarks c files

/-- How a run ends, by its calls: it has done all its steps; or one failed that no run survives, of configuration
or the very first; or another failed and that was told, with a result if the telling went well. -/
inductive Ending (c : Collaborators σ) (files : List SourceFile) (calls : List Call)
    (o : Except Failure RunResult) : Prop
  | completed {r : RunResult} (ho : o = .ok r) (hstatus : r.status = .completed)
      (haccount : Account calls (allMarks c files) [] (.ok ()))
  | refused {e : Failure} (ho : o = .error e)
      (haccount : Account calls (allMarks c files) [] (.error e : Except Failure Unit))
      (he : e.isConfig = true ∨ ∃ p n message answer, calls = [.progress p n message answer])
  | failed {e : Failure} {r : RunResult} {steps : List Call} {message : String} {answer : Except Failure Unit}
      (hcalls : calls = steps ++ [.progress .failed Phase.failed.percent message answer])
      (haccount : Account steps (allMarks c files) [] (.error e : Except Failure Unit))
      (he : e.isConfig = false) (hstatus : r.status = .failed) (ho : o = answer.map fun _ => r)

theorem traced_analyze (c : Collaborators σ) (files : List SourceFile) (project : String) (s : σ) :
    ∃ calls, (analyze c.traced files project).run ([], s) =
        (((analyze c files project).run s).1, calls, ((analyze c files project).run s).2) ∧
      Ending c files calls ((analyze c files project).run s).1 ∧ (∀ k ∈ calls, k.From c) ∧
      ∃ o later, calls = .starting project o :: later := by
  have htold (p : Phase) (n : Nat) (message : String) (calls : List Call) (s : σ) :
      (c.traced.progress p n message).run (calls, s) =
        (((c.progress p n message).run s).1,
          calls ++ [.progress p n message ((c.progress p n message).run s).1],
          ((c.progress p n message).run s).2) := rfl
  rw [run_analyze, run_analyze, htold]
  have hstart : (Call.starting project
      ((c.progress .started Phase.started.percent s!"Starting analysis of {project}").run s).1).From c := ⟨s, rfl⟩
  generalize (c.progress .started _ _).run s = p at hstart
  obtain ⟨e | ⟨⟩, s₁⟩ := p
  · refine ⟨[.starting project (.error e)], rfl, .refused rfl ?_ (.inr ⟨_, _, _, _, rfl⟩), by simpa using hstart,
      _, _, rfl⟩
    exact .single rfl rfl nofun
  · obtain ⟨new, hbody, haccount, hnew⟩ := tells_body c files project { project } s₁
      [.progress .started Phase.started.percent s!"Starting analysis of {project}" (.ok ())]
    have hcompleted := leads_completed c files project { project } s₁ rfl
    have hfirst : Account [.starting project (.ok ())] (allMarks c files) (bodyMarks c files) (.ok ()) :=
      .done rfl (by simp [Call.starting, Call.fatal?, Call.failure?, failure?])
    have haccount := hfirst.trans haccount
    have hfrom : ∀ k ∈ [.starting project (.ok ())] ++ new, k.From c := by simpa using ⟨hstart, hnew⟩
    dsimp only
    rw [List.nil_append, hbody]
    generalize ((body c files project).run.run { project }).run s₁ = q at haccount hcompleted
    obtain ⟨⟨e | ⟨⟩, r⟩, s₂⟩ := q
    · cases he : e.isConfig with
      | true =>
        have hfinish {τ : Type} (c : Collaborators τ) (s : τ) : (finish c (.error e, r)).run s = (.error e, s) := by
          simp only [finish, he, if_true]
          rfl
        rw [hfinish, hfinish]
        exact ⟨_, rfl, .refused rfl haccount (.inl he), hfrom, _, _, rfl⟩
      | false =>
        rw [run_finish c he, run_finish c.traced he, htold]
        refine ⟨_, rfl, .failed rfl haccount he rfl rfl, fun k hk => ?_, _, _, rfl⟩
        cases List.mem_append.1 hk with
        | inl hk => exact hfrom k hk
        | inr hk => exact List.mem_singleton.1 hk ▸ ⟨s₂, rfl⟩
    · exact ⟨_, rfl, .completed rfl hcompleted haccount, hfrom, _, _, rfl⟩

end Run
end CodeAudit
