import CodeAudit.Proofs.Finding.Dedupe
import CodeAudit.Proofs.Review.Outcome

/-!
The review of a file, put together from those of its pieces. Batch after batch its pieces are reviewed
in order, and what they come to is gathered: all findings, or nothing if the review of a piece fails.
-/
set_option autoImplicit false

namespace CodeAudit.Reviewer
variable {σ : Type}

theorem bind_run {α β : Type} (x : StateM σ α) (f : α → StateM σ β) (s : σ) :
    (x >>= f).run s = (f (x.run s).1).run (x.run s).2 := rfl

theorem gathered_eq_ok_iff {xs : List (Except Failure Outcome)} {fs : List Finding} :
    gathered xs = .ok fs ↔ ∃ os : List Outcome, xs = os.map .ok ∧ fs = os.flatMap Outcome.findings := by
  induction xs generalizing fs with
  | nil => simp [gathered]
  | cons x xs ih =>
    cases x with
    | error e =>
      constructor
      · intro h
        cases h
      · rintro ⟨- | ⟨p, os⟩, hx, -⟩ <;> cases hx
    | ok o =>
      rw [gathered, Json.Reader.map_eq_ok]
      constructor
      · rintro ⟨gs, hg, rfl⟩
        obtain ⟨os, rfl, rfl⟩ := ih.1 hg
        exact ⟨o :: os, rfl, rfl⟩
      · rintro ⟨- | ⟨p, os⟩, hx, rfl⟩
        · cases hx
        · obtain ⟨ho, rfl⟩ := List.cons.inj hx
          cases ho
          exact ⟨_, ih.2 ⟨os, rfl, rfl⟩, rfl⟩

theorem gathered_map_ok (os : List Outcome) : gathered (os.map .ok) = .ok (os.flatMap Outcome.findings) :=
  gathered_eq_ok_iff.2 ⟨os, rfl, rfl⟩

theorem gathered_eq_error {xs : List (Except Failure Outcome)} {e : Failure}
    (h : gathered xs = .error e) : .error e ∈ xs := by
  induction xs with
  | nil => cases h
  | cons x xs ih =>
    cases x with
    | error e' =>
      cases h
      simp
    | ok o =>
      rw [gathered, Json.Reader.map_eq_error] at h
      exact List.mem_cons_of_mem _ (ih h)

theorem gathered_append (xs ys : List (Except Failure Outcome)) :
    gathered (xs ++ ys) = (gathered xs).bind fun fs => (gathered ys).map (fs ++ ·) := by
  induction xs with
  | nil => cases h : gathered ys <;> simp [gathered, Except.bind, Except.map, h]
  | cons x xs ih =>
    cases x with
    | error e => rfl
    | ok o =>
      rw [List.cons_append, gathered, ih, gathered]
      cases gathered xs <;> cases gathered ys <;> simp [Except.bind, Except.map]

theorem batches_flatten {α : Type} {size : Nat} (h : 0 < size) (xs : List α) :
    (batches size xs).flatten = xs := by
  fun_induction batches size xs with
  | case1 => exact absurd h (Nat.lt_irrefl 0)
  | case2 => rfl
  | case3 n x r ih => simp [ih h]

theorem exists_of_mem_right {α β : Type} {R : α → β → Prop} {as : List α} {bs : List β}
    (h : List.Forall₂ R as bs) {b : β} (hb : b ∈ bs) : ∃ a ∈ as, R a b := by
  obtain ⟨i, hi, rfl⟩ := List.getElem_of_mem hb
  exact ⟨as.get ⟨i, h.length_eq ▸ hi⟩, List.get_mem _ _, h.get _ hi⟩

/-- What the review of a piece can come to with this model. -/
def Yields (r : Reviewer) (w : World σ) (path language : String) (c : Chunk)
    (x : Except Failure Outcome) : Prop :=
  ∃ s, ((r.reviewChunk w path language c).run s).1 = x

variable {r : Reviewer} {w : World σ} {path language : String}

theorem mapM_cons_run {α β : Type} (f : α → StateM σ β) (a : α) (as : List α) (s : σ) :
    ((a :: as).mapM f).run s = (((f a).run s).1 :: ((as.mapM f).run ((f a).run s).2).1,
      ((as.mapM f).run ((f a).run s).2).2) := by
  rw [List.mapM_cons]
  rfl

theorem mapM_yields (cs : List Chunk) (s : σ) : List.Forall₂ (r.Yields w path language) cs
    ((cs.mapM (r.reviewChunk w path language)).run s).1 := by
  induction cs generalizing s with
  | nil => exact .nil
  | cons c cs ih =>
    rw [List.mapM_cons]
    exact .cons ⟨s, rfl⟩ (ih _)

theorem reviewBatches_cons (r : Reviewer) (w : World σ) (path language : String) (b : List Chunk)
    (bs : List (List Chunk)) (s : σ) : ∃ s',
    ((r.reviewBatches w path language (b :: bs)).run s).1 =
      (gathered ((b.mapM (r.reviewChunk w path language)).run s).1).bind fun fs =>
        (((r.reviewBatches w path language bs).run s').1).map (fs ++ ·) := by
  rw [reviewBatches, bind_run]
  cases gathered ((b.mapM (r.reviewChunk w path language)).run s).1 with
  | error e => exact ⟨s, rfl⟩
  | ok fs =>
    by_cases hp : (!bs.isEmpty && r.delay.isPositive) = true
    · refine ⟨((w.sleep r.delay).run ((b.mapM (r.reviewChunk w path language)).run s).2).2, ?_⟩
      simp only [hp, if_true]
      rfl
    · refine ⟨((b.mapM (r.reviewChunk w path language)).run s).2, ?_⟩
      simp only [hp]
      rfl

/-- The pieces are reviewed in order up to the batch in which a review fails, or all of them. -/
theorem reviewBatches_gathers (r : Reviewer) (w : World σ) (path language : String)
    (bs : List (List Chunk)) (s : σ) : ∃ xs,
    List.Forall₂ (r.Yields w path language) (bs.flatten.take xs.length) xs ∧
    ((r.reviewBatches w path language bs).run s).1 = gathered xs ∧
    ((∀ e, .error e ∉ xs) → xs.length = bs.flatten.length) := by
  induction bs generalizing s with
  | nil => exact ⟨[], .nil, rfl, fun _ => rfl⟩
  | cons b bs ih =>
    obtain ⟨s', hr⟩ := reviewBatches_cons r w path language b bs s
    have hb : List.Forall₂ (r.Yields w path language) b _ := mapM_yields b s
    generalize ((b.mapM (r.reviewChunk w path language)).run s).1 = ys at hr hb
    cases hy : gathered ys with
    | error e =>
      refine ⟨ys, ?_, by rw [hr, hy]; rfl, fun hn => absurd (gathered_eq_error hy) (hn e)⟩
      rwa [List.flatten_cons, ← hb.length_eq, List.take_left]
    | ok fs =>
      obtain ⟨xs, hxs, hrun, hlen⟩ := ih s'
      refine ⟨ys ++ xs, ?_, by rw [hr, hrun, gathered_append, hy], fun hn => ?_⟩
      · rw [List.flatten_cons, List.length_append, ← hb.length_eq, List.take_length_add_append]
        exact List.rel_append hb hxs
      · rw [List.flatten_cons, List.length_append, List.length_append, hb.length_eq,
          hlen fun e he => hn e (List.mem_append_right ys he)]

theorem reviewFile_run (r : Reviewer) (w : World σ) (path text language : String) (s : σ) :
    ((r.reviewFile w path text language).run s).1 = ((r.reviewBatches w path language
      (batches r.maxConcurrent.toNat (Chunk.split r.window text))).run s).1.map Findings.dedupe := rfl

/-- The outcomes of the pieces of a file, in their order, come together to its review. -/
theorem reviewFile_gathers (hr : 1 ≤ r.maxConcurrent) (path text language : String) (s : σ) : ∃ xs,
    List.Forall₂ (r.Yields w path language) ((Chunk.split r.window text).take xs.length) xs ∧
    ((r.reviewFile w path text language).run s).1 = (gathered xs).map Findings.dedupe ∧
    ((∀ e, .error e ∉ xs) → xs.length = (Chunk.split r.window text).length) := by
  obtain ⟨xs, hxs, hrun, hlen⟩ := reviewBatches_gathers r w path language
    (batches r.maxConcurrent.toNat (Chunk.split r.window text)) s
  rw [batches_flatten (by omega)] at hxs hlen
  exact ⟨xs, hxs, by rw [reviewFile_run, hrun], hlen⟩

theorem reviewChunk_cases (hw : ∀ prompt s, ((w.call prompt).run s).1.reply.Regular)
    (path language : String) (c : Chunk) (s : σ) :
    (∃ o, ((r.reviewChunk w path language c).run s).1 = .ok o ∧ (o.fault? ≠ none → o.findings = [])) ∧
        (∀ e, ¬(r.heard w (reviewPrompt c path language r.maxPromptChars) s).Lost w.nesting e) ∨
      ∃ e, ((r.reviewChunk w path language c).run s).1 = .error e.failure ∧
        (r.heard w (reviewPrompt c path language r.maxPromptChars) s).Lost w.nesting e := by
  rw [reviewChunk_eq]
  obtain ⟨⟨o, ho⟩, hl⟩ | h := Outcome.ofReply_cases w.nesting r.timeout c path
    (r.heard_regular (reviewPrompt c path language r.maxPromptChars) s (hw _ s))
  · exact .inl ⟨⟨o, ho, Outcome.findings_of_fault⟩, hl⟩
  · exact .inr h

/-- A piece comes to an outcome, with no findings beside a fault, unless its answer is lost; and a file to
all that its pieces come to, unless the answer about one of them is lost. -/
theorem reviewFile_lost (hw : ∀ prompt s, ((w.call prompt).run s).1.reply.Regular)
    (path language : String) :
    (∀ c s,
      (∃ o, ((r.reviewChunk w path language c).run s).1 = .ok o ∧ (o.fault? ≠ none → o.findings = [])) ∧
          (∀ e, ¬(r.heard w (reviewPrompt c path language r.maxPromptChars) s).Lost w.nesting e) ∨
        ∃ e, ((r.reviewChunk w path language c).run s).1 = .error e.failure ∧
          (r.heard w (reviewPrompt c path language r.maxPromptChars) s).Lost w.nesting e) ∧
    (1 ≤ r.maxConcurrent → ∀ text s,
      (∃ os : List Outcome,
        List.Forall₂ (fun c o => r.Yields w path language c (.ok o)) (Chunk.split r.window text) os ∧
        ∃ fs, ((r.reviewFile w path text language).run s).1 = .ok fs ∧
          ∀ o ∈ os, ∀ f ∈ o.findings, ∃ g ∈ fs, g.key = f.key) ∨
        ∃ e : Json.Excess, ((r.reviewFile w path text language).run s).1 = .error e.failure ∧
          ∃ c ∈ Chunk.split r.window text, r.Yields w path language c (.error e.failure)) := by
  refine ⟨fun c s => reviewChunk_cases hw path language c s, fun hr text s => ?_⟩
  obtain ⟨xs, hxs, hrun, hlen⟩ := reviewFile_gathers (w := w) hr path text language s
  cases hg : gathered xs with
  | ok fs =>
    obtain ⟨os, rfl, rfl⟩ := gathered_eq_ok_iff.1 hg
    rw [hlen (by simp), List.take_length] at hxs
    refine .inl ⟨os, List.forall₂_map_right_iff.1 hxs, _, by rw [hrun, hg]; rfl, fun o ho f hf => ?_⟩
    exact Findings.exists_key_dedupe (List.mem_flatMap.2 ⟨o, ho, hf⟩)
  | error e =>
    obtain ⟨c, hc, s', hy⟩ := exists_of_mem_right hxs (gathered_eq_error hg)
    obtain ⟨⟨o, ho, -⟩, -⟩ | ⟨x, he, -⟩ := reviewChunk_cases (r := r) hw path language c s'
    · cases ho.symm.trans hy
    · cases he.symm.trans hy
      exact .inr ⟨x, by rw [hrun, hg]; rfl, c, List.mem_of_mem_take hc, s', he⟩

/-- A model that falls silent after its first answer: what that has found is kept. -/
theorem reviewFile_lost_silent :
    let r : Reviewer := ⟨⟨1, 0, by decide⟩, 2, .whole 0, .whole 5, 100⟩
    let w : World Nat := ⟨fun _ n =>
      (⟨if n = 0 then .content (.text "[\x7b\"line\": 1\x7d]") else .silence, 0⟩, n + 1), fun _ n => ((), n),
      Script.nesting⟩
    ∃ o os fs, List.Forall₂ (fun c o => r.Yields w "p" "Python" c (.ok o))
        [⟨"a", 1, 1, 0, 2⟩, ⟨"b", 2, 2, 1, 2⟩] (o :: os) ∧
      ((r.reviewFile w "p" "a\nb" "Python").run 0).1 = .ok fs ∧
      ∀ f ∈ o.findings, ∃ g ∈ fs, g.key = f.key := by
  intro r w
  have hsplit : Chunk.split r.window "a\nb" = [⟨"a", 1, 1, 0, 2⟩, ⟨"b", 2, 2, 1, 2⟩] := by cbv
  have hreply (prompt : String) (n : Nat) : ((w.call prompt).run n).1.reply =
      if n = 0 then .content (.text "[\x7b\"line\": 1\x7d]") else .silence := rfl
  have hi : Answer.issues w.nesting "[\x7b\"line\": 1\x7d]".toList = .ok [[("line", .int 1)]] := by cbv
  have hw : ∀ prompt s, ((w.call prompt).run s).1.reply.Regular := fun prompt n => by
    rw [hreply]
    split
    · exact fun _ _ => ⟨_, rfl⟩
    · simp [Reply.Regular]
  have hlost (prompt : String) (n : Nat) (e : Json.Excess) : ¬(r.heard w prompt n).Lost w.nesting e := by
    rw [heard_eq (by decide) rfl, hreply]
    split
    · exact Reply.not_lost_of_ok rfl hi e
    · simp [Reply.Lost, Reply.text?]
  obtain ⟨hc, hf⟩ := reviewFile_lost (r := r) hw "p" "Python"
  obtain ⟨os, hos, fs, hfs, hk⟩ | ⟨e, -, c, -, n, hy⟩ := hf (by decide) "a\nb" 0
  · rw [hsplit] at hos
    cases hos with
    | cons ho hos => exact ⟨_, _, fs, .cons ho hos, hfs, hk _ (by simp)⟩
  · obtain ⟨⟨o, ho, -⟩, -⟩ | ⟨e', -, h⟩ := hc c n
    · cases ho.symm.trans hy
    · exact absurd h (hlost _ _ _)

theorem reviewFile_excessive {long : String} {e : Json.Excess}
    (ho : Answer.Excessive Script.nesting long.toList e) :
    let r : Reviewer := ⟨⟨1, 0, by decide⟩, 2, .whole 0, .whole 5, 100⟩
    let good : Behaviour := ⟨.content (.text "[\x7b\"line\": 1\x7d]"), 0⟩
    let bad : Behaviour := ⟨.content (.text long), 0⟩
    ((r.reviewChunk Script.world "p" "Python" ⟨"b", 2, 2, 1, 2⟩).run { replies := [bad] }).1 =
      .error e.failure ∧
    ((r.reviewChunk Script.world "p" "Python" ⟨"a", 1, 1, 0, 2⟩).run { replies := [good] }).1.map
      (·.findings.length) = .ok 1 ∧
    ((r.reviewFile Script.world "p" "a\nb" "Python").run { replies := [good, bad] }).1 =
      .error e.failure := by
  intro r good bad
  have hlost (c : Chunk) (s : Script) (h : ∀ prompt, ((Script.world.call prompt).run s).1 = bad) :
      ((r.reviewChunk Script.world "p" "Python" c).run s).1 = .error e.failure := by
    rw [reviewChunk_eq, heard_eq (by decide) rfl, h]
    exact Outcome.ofReply_excessive ho _ _ _
  have hfound (c : Chunk) (s : Script) (h : ∀ prompt, ((Script.world.call prompt).run s).1 = good) :
      ((r.reviewChunk Script.world "p" "Python" c).run s).1 =
        .ok (.found (Outcome.normalized c "p" [[("line", .int 1)]])) := by
    have ht : good.reply.text? = some "[\x7b\"line\": 1\x7d]".toList := rfl
    have hi : Answer.issues Script.world.nesting "[\x7b\"line\": 1\x7d]".toList =
        .ok [[("line", .int 1)]] := by cbv
    rw [reviewChunk_eq, heard_eq (by decide) rfl, h, Outcome.ofReply_text ht, Outcome.ofText, hi]
  refine ⟨hlost _ _ fun _ => rfl, ?_, ?_⟩
  · rw [hfound _ _ fun _ => rfl]
    rfl
  · have hsplit : batches r.maxConcurrent.toNat (Chunk.split r.window "a\nb") =
        [[⟨"a", 1, 1, 0, 2⟩, ⟨"b", 2, 2, 1, 2⟩]] := by cbv
    have hm (c d : Chunk) (s : Script) : (([c, d].mapM (r.reviewChunk Script.world "p" "Python")).run s).1 =
        [((r.reviewChunk Script.world "p" "Python" c).run s).1,
          ((r.reviewChunk Script.world "p" "Python" d).run
            ((r.reviewChunk Script.world "p" "Python" c).run s).2).1] := rfl
    obtain ⟨s', hs⟩ := reviewBatches_cons r Script.world "p" "Python"
      [⟨"a", 1, 1, 0, 2⟩, ⟨"b", 2, 2, 1, 2⟩] [] { replies := [good, bad] }
    have h₁ := hfound ⟨"a", 1, 1, 0, 2⟩ { replies := [good, bad] } fun _ => rfl
    have h₂ := hlost ⟨"b", 2, 2, 1, 2⟩ ((r.reviewChunk Script.world "p" "Python" ⟨"a", 1, 1, 0, 2⟩).run
      { replies := [good, bad] }).2 fun _ => rfl
    rw [reviewFile_run, hsplit, hs, hm, h₁, h₂]
    rfl

/-- One digit too many is enough. -/
theorem reviewFile_not_total :
    let r : Reviewer := ⟨⟨1, 0, by decide⟩, 2, .whole 0, .whole 5, 100⟩
    let good : Behaviour := ⟨.content (.text "[\x7b\"line\": 1\x7d]"), 0⟩
    let bad : Behaviour := ⟨.content (.text Answer.longList), 0⟩
    ((r.reviewChunk Script.world "p" "Python" ⟨"b", 2, 2, 1, 2⟩).run { replies := [bad] }).1 =
      .error .tooManyDigits ∧
    ((r.reviewChunk Script.world "p" "Python" ⟨"a", 1, 1, 0, 2⟩).run { replies := [good] }).1.map
      (·.findings.length) = .ok 1 ∧
    ((r.reviewFile Script.world "p" "a\nb" "Python").run { replies := [good, bad] }).1 =
      .error .tooManyDigits :=
  reviewFile_excessive (Answer.excessive_longList (by decide))

end CodeAudit.Reviewer
