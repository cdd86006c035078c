import CodeAudit.Architecture.Assess
import CodeAudit.Proofs.Review.Gathered
import CodeAudit.Proofs.Run.Trace

set_option autoImplicit false

namespace CodeAudit

theorem Json.Excess.isConfig_failure (e : Json.Excess) : e.failure.isConfig = false := by
  cases e <;> rfl

theorem Outcome.ofReply_error {limit : Nat} {timeout : Seconds} {c : Chunk} {path : String} {reply : Reply}
    {e : Failure} (h : ofReply limit timeout c path reply = .error e) : e.isConfig = false := by
  have htext {t : List Char} (h : ofText limit c path t = .error e) : e.isConfig = false := by
    obtain ⟨⟨o, ho⟩, -⟩ | ⟨x, he, -⟩ := ofText_cases limit c path t
    · cases ho.symm.trans h
    · cases he.symm.trans h
      exact x.isConfig_failure
  unfold ofReply at h
  split at h
  · cases h
  · cases h
  · exact htext h
  · split at h
    · cases h
      rfl
    · exact htext h

namespace Reviewer
variable {σ : Type} {r : Reviewer} {w : World σ} {path language : String}

theorem reviewFile_error {text : String} {s : σ} {e : Failure}
    (h : ((r.reviewFile w path text language).run s).1 = .error e) : e.isConfig = false := by
  obtain ⟨xs, hxs, hrun, -⟩ := reviewBatches_gathers r w path language
    (batches r.maxConcurrent.toNat (Chunk.split r.window text)) s
  rw [reviewFile_run, hrun, Json.Reader.map_eq_error] at h
  obtain ⟨c, -, s', hchunk⟩ := exists_of_mem_right hxs (gathered_eq_error h)
  rw [reviewChunk_eq] at hchunk
  exact Outcome.ofReply_error hchunk

theorem reviewChunk_config {c : Chunk} {s : σ} {m : String}
    (h : r.heard w (reviewPrompt c path language r.maxPromptChars) s = .failure (.config m)) :
    ((r.reviewChunk w path language c).run s).1 = .ok (.failed .transport m) := by
  rw [reviewChunk_eq, h]
  rfl

end Reviewer

namespace Architecture
variable {σ : Type} {timeout : Seconds} {w : World σ} {files : List SourceFile} {project : String} {s : σ}

theorem ofReply_error {limit : Nat} {reply : Reply} {e : Failure} (h : ofReply limit reply = .error e) :
    e.isConfig = false := by
  have htext {t : List Char} (h : ofText limit t = .error e) : e.isConfig = false := by
    unfold ofText at h
    split at h <;> cases h
    rename_i x _
    exact x.isConfig_failure
  unfold ofReply at h
  split at h
  · cases h
  · cases h
  · exact htext h
  · split at h
    · cases h
      rfl
    · exact htext h

theorem assess_error {e : Failure} (h : ((assess timeout w files project).run s).1 = .error e) :
    e.isConfig = false := by
  unfold assess at h
  split at h
  · cases h
  · exact ofReply_error h

theorem assess_failure {e : Failure}
    (h : ((Reviewer.ask w timeout (architecturePrompt files project)).run s).1 = .failure e) :
    ((assess timeout w files project).run s).1 = .ok none := by
  unfold assess
  split
  · rfl
  · exact congrArg (ofReply w.nesting) h

end Architecture

theorem failure?_eq_some {α : Type} {o : Except Failure α} {e : Failure} : failure? o = some e ↔ o = .error e := by
  cases o <;> simp [failure?]

namespace Call

/-- The call is neither for a tree nor for an assessment. -/
def Essential : Call → Prop
  | .build .. | .assess .. => False
  | _ => True

def IsModel : Call → Prop
  | .review .. | .assess .. => True
  | _ => False

theorem fatal?_config {k : Call} {m : String} (hk : k.Essential) (h : k.failure? = some (.config m)) :
    k.fatal? = some (.config m) := by
  cases k with
  | build => exact hk.elim
  | assess => exact hk.elim
  | review =>
    rw [fatal?, h]
    rfl
  | _ => exact h

end Call

namespace Run
variable {σ α : Type} {calls : List Call} {plan rest : List Mark} {k : Call} {m : String}

theorem Account.ne_config {a : α} (h : Account calls plan rest (.ok a)) (hk : k ∈ calls) :
    k.fatal? ≠ some (.config m) := by
  cases h with
  | done hplan hcalls =>
    rw [hcalls k hk]
    exact nofun

/-- A step whose calls fail for their configuration fails for it too. -/
theorem Account.eq_config {e : Failure} (h : Account calls plan rest (.error e : Except Failure α)) (hk : k ∈ calls)
    (hfatal : k.fatal? = some (.config m)) : e = .config m := by
  cases h with
  | stopped hcalls hplan hearlier hlast hmissing =>
    rw [hcalls] at hk
    cases List.mem_append.1 hk with
    | inl hk =>
      rw [hearlier k hk] at hfatal
      cases hfatal
    | inr hk =>
      rw [List.mem_singleton.1 hk, hlast] at hfatal
      exact Option.some.inj hfatal

theorem Ending.eq_config {c : Collaborators σ} {files : List SourceFile} {o : Except Failure RunResult}
    (h : Ending c files calls o) (hk : k ∈ calls) (hfatal : k.fatal? = some (.config m)) :
    o = .error (.config m) := by
  cases h with
  | completed ho hstatus haccount => exact absurd hfatal (haccount.ne_config hk)
  | refused ho haccount he => rw [ho, haccount.eq_config hk hfatal]
  | failed hcalls haccount he hstatus ho =>
    rename_i e r steps message answer
    rw [hcalls] at hk
    cases List.mem_append.1 hk with
    | inl hk =>
      rw [haccount.eq_config hk hfatal] at he
      cases he
    | inr hk =>
      -- the sink, which is told of another failure, may fail for its own configuration
      rw [List.mem_singleton.1 hk] at hfatal
      cases answer with
      | ok => cases hfatal
      | error e =>
        rw [ho, Option.some.inj hfatal]
        rfl

/-- A failure of configuration, in whichever call for a review, for a score, to the store or to the sink, is what the
run fails with. The calls that the model itself gets are behind those for reviews and assessments: such a failure of theirs
becomes a fault of one piece, or no assessment, and no review and no assessment fails for its configuration. -/
theorem analyze_fatal (c : Collaborators σ) (files : List SourceFile) (project : String) (s : σ) :
    ∃ calls, (analyze c.traced files project).run ([], s) =
        (((analyze c files project).run s).1, calls, ((analyze c files project).run s).2) ∧
      (∀ k ∈ calls, k.From c) ∧
      (∀ k ∈ calls, k.Essential → ∀ m, k.failure? = some (.config m) →
        ((analyze c files project).run s).1 = .error (.config m)) ∧
      ∀ (reviewer : Reviewer) (timeout : Seconds) (w w' : World σ),
        c.model = some ⟨reviewer.reviewFile w, Architecture.assess timeout w'⟩ →
        (∀ path language chunk s m,
          reviewer.heard w (reviewPrompt chunk path language reviewer.maxPromptChars) s = .failure (.config m) →
            ((reviewer.reviewChunk w path language chunk).run s).1 = .ok (.failed .transport m)) ∧
        (∀ s m, ((Reviewer.ask w' timeout (architecturePrompt files project)).run s).1 = .failure (.config m) →
          ((Architecture.assess timeout w' files project).run s).1 = .ok none) ∧
        ∀ k ∈ calls, k.IsModel → ∀ m, k.failure? ≠ some (.config m) := by
  obtain ⟨calls, hrun, hending, hfrom, -⟩ := traced_analyze c files project s
  refine ⟨calls, hrun, hfrom, fun k hk hessential m hm => hending.eq_config hk (Call.fatal?_config hessential hm),
    fun reviewer timeout w w' hmodel => ⟨fun path language chunk s m h => Reviewer.reviewChunk_config h,
      fun s m h => Architecture.assess_failure h, fun k hk hkmodel m hm => ?_⟩⟩
  have hk := hfrom k hk
  cases k with
  | review path text language o =>
    obtain ⟨side, s', hside, ho⟩ := hk
    cases hmodel.symm.trans hside
    cases Reviewer.reviewFile_error (ho.trans (failure?_eq_some.1 hm))
  | assess files project o =>
    obtain ⟨side, s', hside, ho⟩ := hk
    cases hmodel.symm.trans hside
    cases Architecture.assess_error (ho.trans (failure?_eq_some.1 hm))
  | _ => exact hkmodel

/-- A score that has no weights to be made with. -/
theorem analyze_fatal_score :
    let c : Collaborators Unit := {
      build := fun _ _ => return .ok none
      model := none
      languages := []
      score := fun _ _ => return .error (.config "no weights")
      save := none
      progress := fun _ _ _ => return .ok () }
    ((analyze c [⟨"a.ts", "x"⟩] "p").run ()).1 = .error (.config "no weights") := by
  intro c
  obtain ⟨calls, hrun, -, hfatal, -⟩ := analyze_fatal c [⟨"a.ts", "x"⟩] "p" ()
  have hlast : ∃ fs a, ((analyze c.traced [⟨"a.ts", "x"⟩] "p").run ([], ())).2.1.getLast? =
      some (.score fs a (.error (.config "no weights"))) := ⟨_, _, rfl⟩
  obtain ⟨fs, a, hlast⟩ := hlast
  rw [hrun] at hlast
  exact hfatal _ (List.mem_of_getLast? hlast) trivial _ rfl

/-- Both calls that the model gets fail for its configuration, that for the one piece and that for the assessment, and
the run completes. -/
theorem analyze_fatal_contained :
    let reviewer : Reviewer := ⟨⟨1, 0, by decide⟩, 2, .whole 0, .whole 5, 100⟩
    let w : World Nat :=
      ⟨fun _ n => (⟨.failure (.config "no key"), 0⟩, n + 1), fun _ n => ((), n), Script.nesting⟩
    let c : Collaborators Nat := {
      build := fun _ _ => return .ok none
      model := some ⟨reviewer.reviewFile w, Architecture.assess (.whole 5) w⟩
      languages := ["TypeScript"]
      score := fun fs a => return Report.of fs a
      save := none
      progress := fun _ _ _ => return .ok () }
    (∀ prompt n, (w.call prompt).run n = (⟨.failure (.config "no key"), 0⟩, n + 1)) ∧
      ∃ r, (analyze c [⟨"a.ts", "x"⟩] "p").run 0 = (.ok r, 2) ∧ r.status = .completed := by
  intro reviewer w c
  refine ⟨fun _ _ => rfl, ?_⟩
  have hcalls : ((analyze c [⟨"a.ts", "x"⟩] "p").run 0).2 = 2 := by
    dsimp only [c, w, reviewer]
    decide +kernel
  have hstatus : ((analyze c [⟨"a.ts", "x"⟩] "p").run 0).1.toOption.map (·.status) = some .completed := by
    dsimp only [c, w, reviewer]
    decide +kernel
  obtain ⟨r, hr, hr'⟩ := Option.map_eq_some_iff.1 hstatus
  refine ⟨r, Prod.ext ?_ hcalls, hr'⟩
  generalize ((analyze c [⟨"a.ts", "x"⟩] "p").run 0).1 = o at hr
  cases o with
  | ok r' => exact congrArg _ (Option.some.inj hr)
  | error e => cases hr

end Run
end CodeAudit
