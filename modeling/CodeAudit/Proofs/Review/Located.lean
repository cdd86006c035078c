import CodeAudit.Proofs.Review.Gathered
import CodeAudit.Proofs.Review.LineMapping

set_option autoImplicit false

namespace CodeAudit

theorem Chunk.ends_within {w : Window} {text : String} {c : Chunk} (h : c ∈ split w text) :
    1 ≤ c.first ∧ c.first ≤ c.last ∧ c.last ≤ Text.lineCount text.toList := by
  rcases List.getElem?_of_mem h with ⟨k, hk⟩
  rcases split_nonempty hk with ⟨hf, hl⟩
  have hlast := (split_ends hk).2.1
  exact ⟨hf, hl, by omega⟩

structure Reviewed (path text : String) (f : Finding) : Prop where
  path : f.path = path
  stop : f.range.stop ≤ Text.lineCount text.toList
  source : f.source = .model
  rule : f.rule = none

theorem Issue.of_toFinding {raw : Fields} {c : Chunk} {path : String} {f : Finding} (h : toFinding raw c path = .ok f) :
    lineRange c (reference raw) = .ok f.range ∧ f.path = path ∧ f.source = .model ∧ f.rule = none ∧
      f.metadata = ([("chunk_index", .int c.index)] : Fields) := by
  unfold toFinding at h
  cases hr : lineRange c (reference raw) with
  | error e =>
    rw [hr] at h
    cases h
  | ok range =>
    rw [hr] at h
    cases h
    exact ⟨rfl, rfl, rfl, rfl, rfl⟩

theorem Issue.reviewed {w : Window} {path text : String} {c : Chunk} (hc : c ∈ Chunk.split w text)
    {raw : Fields} {f : Finding} (h : toFinding raw c path = .ok f) : Reviewed path text f := by
  rcases Chunk.ends_within hc with ⟨hf, hl, hlast⟩
  rcases of_toFinding h with ⟨hr, hpath, hsource, hrule, -⟩
  exact ⟨hpath, by have := (lineRange_bounds hf hl hr).2; omega, hsource, hrule⟩

theorem Outcome.exists_issue {limit : Nat} {c : Chunk} {path : String} {timeout : Seconds} {reply : Reply}
    {o : Outcome} (ho : ofReply limit timeout c path reply = .ok o) {f : Finding} (h : f ∈ o.findings) :
    ∃ raw, Issue.toFinding raw c path = .ok f := by
  have htext {t : List Char} (ho : ofText limit c path t = .ok o) : ∃ raw, Issue.toFinding raw c path = .ok f := by
    unfold ofText at ho
    split at ho
    · cases ho
      rcases List.mem_filterMap.1 h with ⟨raw, -, hraw⟩
      cases hf : Issue.toFinding raw c path with
      | error e =>
        rw [hf] at hraw
        cases hraw
      | ok g =>
        rw [hf] at hraw
        cases hraw
        exact ⟨raw, hf⟩
    · cases ho
      cases h
    · cases ho
  unfold ofReply at ho
  split at ho
  · cases ho
    cases h
  · cases ho
    split at h <;> cases h
  · exact htext ho
  · split at ho
    · cases ho
    · exact htext ho

theorem Reviewer.mem_of_mem_batches {α : Type} {size : Nat} {xs : List α} {x : α}
    (h : x ∈ (batches size xs).flatten) : x ∈ xs := by
  cases size with
  | zero => simp [batches] at h
  | succ n => rwa [batches_flatten (Nat.succ_pos n)] at h

theorem Reviewer.exists_issues {σ : Type} {r : Reviewer} {w : World σ} {path text language : String}
    {s : σ} {fs : List Finding} (h : ((r.reviewFile w path text language).run s).1 = .ok fs) :
    ∃ gs, fs = Findings.dedupe gs ∧
      ∀ f ∈ gs, ∃ c ∈ Chunk.split r.window text, ∃ raw, Issue.toFinding raw c path = .ok f := by
  rcases reviewBatches_gathers r w path language (batches r.maxConcurrent.toNat (Chunk.split r.window text)) s
    with ⟨xs, hxs, hrun, -⟩
  rw [reviewFile_run, hrun] at h
  cases hg : gathered xs with
  | error e =>
    rw [hg] at h
    cases h
  | ok gs =>
    rw [hg] at h
    cases h
    refine ⟨gs, rfl, fun f hf => ?_⟩
    rcases gathered_eq_ok_iff.1 hg with ⟨os, rfl, rfl⟩
    rcases List.mem_flatMap.1 hf with ⟨o, ho, hf⟩
    rcases exists_of_mem_right hxs (List.mem_map.2 ⟨o, ho, rfl⟩) with ⟨c, hc, s', hy⟩
    rw [reviewChunk_eq] at hy
    exact ⟨c, mem_of_mem_batches (List.mem_of_mem_take hc), Outcome.exists_issue hy hf⟩

/-- Whatever the model replies, what the review of a file finds lies in the file, and no two findings have the
same key. -/
theorem Reviewer.reviewFile_located {σ : Type} {r : Reviewer} {w : World σ} {path text language : String}
    {s : σ} {fs : List Finding} (h : ((r.reviewFile w path text language).run s).1 = .ok fs) :
    (∀ f ∈ fs, Reviewed path text f) ∧ (fs.map Finding.key).Nodup := by
  rcases exists_issues h with ⟨gs, rfl, hissues⟩
  refine ⟨fun f hf => ?_, Findings.nodup_dedupe gs⟩
  rcases hissues f (Findings.mem_of_mem_dedupe hf) with ⟨c, hc, raw, hraw⟩
  exact Issue.reviewed hc hraw

theorem Reviewer.reviewFile_single {σ : Type} {r : Reviewer} (hr : 1 ≤ r.maxConcurrent) (ht : r.timeout.isPositive)
    {w : World σ} {text : String} {c : Chunk} (hsplit : Chunk.split r.window text = [c]) {t : List Char}
    {issues : List Fields} (hw : ∀ prompt s, ((w.call prompt).run s).1.reply.text? = some t)
    (hissues : Answer.issues w.nesting t = .ok issues) (path language : String) (s : σ) :
    ((r.reviewFile w path text language).run s).1 =
      .ok (Findings.dedupe (Outcome.normalized c path issues)) := by
  have hchunk : ((r.reviewChunk w path language c).run s).1 = .ok (.found (Outcome.normalized c path issues)) := by
    rw [reviewChunk_eq, heard_eq hr ht, Outcome.ofReply_text (hw _ _), Outcome.ofText, hissues]
  have hbatches : batches r.maxConcurrent.toNat [c] = [[c]] := by
    obtain ⟨n, hn⟩ : ∃ n, r.maxConcurrent.toNat = n + 1 := ⟨r.maxConcurrent.toNat - 1, by omega⟩
    rw [hn, batches, List.take_nil, List.drop_nil, batches]
    simp
  rcases reviewBatches_cons r w path language [c] [] s with ⟨s', hs'⟩
  rw [reviewFile_run, hsplit, hbatches, hs', mapM_cons_run, hchunk]
  change Except.ok (Findings.dedupe ((Outcome.normalized c path issues ++ []) ++ [])) = _
  rw [List.append_nil, List.append_nil]

end CodeAudit
