import CodeAudit.Proofs.Review.Finish

/-!
The review of a file through any course. What its pieces come to is told by their prompts, and is put
together in their order, so that nothing depends on when the pieces are reviewed or how many at a time.
-/
set_option autoImplicit false

namespace CodeAudit

theorem Outcome.flatMap_of_fault (alone : Chunk → Outcome) (cs : List Chunk) :
    (cs.flatMap fun c => (alone c).findings) =
      (cs.filter fun c => (alone c).fault?.isNone).flatMap fun c => (alone c).findings := by
  induction cs with
  | nil => rfl
  | cons c cs ih =>
    cases hf : (alone c).fault? with
    | none => simp [hf, ih]
    | some fault => simp [hf, ih, findings_of_fault (o := alone c) (by simp [hf])]

namespace FileReview

/-- The review of a file, so far: the findings of the pieces that are over, in order, then the batch under
way, then the pieces to come. -/
structure Follows (pieces : List Chunk) (alone : Chunk → Outcome) (path language : String)
    (f : FileReview) : Prop where
  path_eq : f.path = path
  language_eq : f.language = language
  ended : ∀ p x, (p, .ended x) ∈ f.batch → x = .ok (alone p)
  progress : (f.result = none ∧ ∃ past, pieces = past ++ f.batch.map (·.1) ++ f.rest.flatten ∧
      f.found = past.flatMap fun c => (alone c).findings) ∨
    f.result = some (.ok (Findings.dedupe (pieces.flatMap fun c => (alone c).findings))) ∧ f.batch = []

variable {pieces : List Chunk} {alone : Chunk → Outcome} {path language : String} {f : FileReview}

theorem Follows.mem (h : f.Follows pieces alone path language) {k : Nat} {p : Chunk} {s : Stage}
    (hp : f.batch[k]? = some (p, s)) : p ∈ pieces := by
  rcases h.progress with ⟨-, past, hall, -⟩ | ⟨-, hb⟩
  · rw [hall]
    have : p ∈ f.batch.map (·.1) := List.mem_map.2 ⟨(p, s), List.mem_of_getElem? hp, rfl⟩
    simp [this]
  · simp [hb] at hp

theorem Follows.setStage (h : f.Follows pieces alone path language) (k : Nat) {s : Stage}
    (hs : ∀ p s₀ x, f.batch[k]? = some (p, s₀) → s = .ended x → x = .ok (alone p)) :
    (f.setStage s k).Follows pieces alone path language where
  path_eq := h.path_eq
  language_eq := h.language_eq
  ended := by
    intro p x hp
    rcases mem_setStage hp with hp | ⟨s₀, hq, hx⟩
    · exact h.ended p x hp
    · exact hs p s₀ x hq hx.symm
  progress := by
    have hb : (f.setStage s k).batch.map (·.1) = f.batch.map (·.1) := by
      apply List.ext_getElem?
      intro i
      simp only [FileReview.setStage, List.getElem?_map, List.getElem?_modify]
      cases f.batch[i]? <;> simp
      split <;> rfl
    rcases h.progress with ⟨hn, past, hall, hfound⟩ | ⟨hr, hb'⟩
    · exact .inl ⟨hn, past, by rw [hb]; exact hall, hfound⟩
    · refine .inr ⟨hr, ?_⟩
      simp [FileReview.setStage, hb']

theorem Follows.results (h : f.Follows pieces alone path language) (he : f.isEnded) :
    f.results = ((f.batch.map (·.1)).map alone).map .ok := by
  have hb (p : Chunk × Stage) (hp : p ∈ f.batch) : p.2.result? = some (.ok (alone p.1)) := by
    rcases stage_of_isEnded he hp with ⟨x, hx⟩
    rw [hx, ← h.ended p.1 x (hx ▸ hp)]
    rfl
  rw [FileReview.results, List.filterMap_congr hb]
  simp [Function.comp_def]

theorem Follows.advance (h : f.Follows pieces alone path language) (hd : f.isDue) :
    f.advance.Follows pieces alone path language := by
  have hn := result_of_isDue hd
  rcases h.progress with ⟨-, past, hall, hfound⟩ | ⟨hr, -⟩
  · have hadv := advanced hd
    generalize f.advance = g at hadv
    cases hadv with
    | failed hg =>
      rcases mem_of_failed hg with ⟨p, hp⟩
      cases h.ended p _ hp
    | finished he hg hr =>
      rw [h.results he, Reviewer.gathered_map_ok] at hg
      cases hg
      refine ⟨h.path_eq, h.language_eq, by simp, .inr ⟨?_, rfl⟩⟩
      simp [hall, hr, hfound, List.flatMap_map]
    | next he hg hr =>
      rw [h.results he, Reviewer.gathered_map_ok] at hg
      cases hg
      refine ⟨h.path_eq, h.language_eq, by simp, .inl ⟨hn, past ++ f.batch.map (·.1), ?_, ?_⟩⟩
      · simp [hall, hr, Function.comp_def]
      · simp [hfound, List.flatMap_map]
  · simp [hn] at hr

theorem Follows.result_of_isDone (h : f.Follows pieces alone path language) {c : Course} (hd : c.isDone)
    {i : Nat} (hf : c.files[i]? = some f) :
    f.result = some (.ok (Findings.dedupe (pieces.flatMap fun c => (alone c).findings))) := by
  simp only [Course.isDone, List.all_eq_true] at hd
  have hs := hd f (List.mem_of_getElem? hf)
  rcases h.progress with ⟨hn, -⟩ | ⟨hr, -⟩
  · simp [hn] at hs
  · exact hr

end FileReview

namespace Reviewer
variable {σ : Type} {r : Reviewer} {w : World σ} {reply : String → Reply}

theorem reviewChunk_determined (hw : ∀ prompt s, ((w.call prompt).run s).1.reply = reply prompt)
    (path language : String) (c : Chunk) (s s' : σ) :
    ((r.reviewChunk w path language c).run s).1 = ((r.reviewChunk w path language c).run s').1 := by
  simp only [reviewChunk_eq, heard, hw]

def paced (r : Reviewer) (m : Int) (d : Seconds) : Reviewer := { r with maxConcurrent := m, delay := d }

theorem reviewChunk_paced (hr : 0 ≤ r.maxConcurrent) {m : Int} (hm : 0 ≤ m) (d : Seconds)
    (w : World σ) (path language : String) (c : Chunk) :
    (r.paced m d).reviewChunk w path language c = r.reviewChunk w path language c := by
  have hm' : ¬m < 0 := by omega
  have hr' : ¬r.maxConcurrent < 0 := by omega
  simp [reviewChunk, paced, hm', hr']

variable {path language : String} {alone : Chunk → Outcome}

theorem forall₂_yields {cs : List Chunk} {xs : List (Except Failure Outcome)}
    (ha : ∀ c ∈ cs, ∀ x, r.Yields w path language c x → x = .ok (alone c))
    (h : List.Forall₂ (r.Yields w path language) cs xs) : xs = (cs.map alone).map .ok := by
  induction h with
  | nil => rfl
  | cons hc hcs ih =>
    rw [ha _ (by simp) _ hc, ih fun c hc => ha c (List.mem_cons_of_mem _ hc)]
    rfl

theorem reviewFile_eq (hr : 1 ≤ r.maxConcurrent) {text : String}
    (ha : ∀ c ∈ Chunk.split r.window text, ∀ x, r.Yields w path language c x → x = .ok (alone c)) (s : σ) :
    ((r.reviewFile w path text language).run s).1 =
      .ok (Findings.dedupe ((Chunk.split r.window text).flatMap fun c => (alone c).findings)) := by
  rcases reviewFile_gathers (w := w) hr path text language s with ⟨xs, hxs, hrun, hlen⟩
  have hx := forall₂_yields (fun c hc => ha c (List.mem_of_mem_take hc)) hxs
  have hl := hlen (by
    intro e he
    rw [hx] at he
    rcases List.mem_map.1 he with ⟨o, -, ho⟩
    cases ho)
  rw [hl, List.take_length] at hx
  rw [hrun, hx, gathered_map_ok]
  simp [Except.map, List.flatMap_map]

end Reviewer

namespace Course
variable {σ : Type} {r : Reviewer} {w : World σ} {files : List (SourceFile × String)} {i : Nat}
  {path text language : String} {alone : Chunk → Outcome} {ms : List Move} {c : Course}

theorem Reaches.follows (hr : 1 ≤ r.maxConcurrent) (hi : files[i]? = some (⟨path, text⟩, language))
    (ha : ∀ c ∈ Chunk.split r.window text, ∀ x, r.Yields w path language c x → x = .ok (alone c))
    (h : Reaches (Faithful r w) (of r files) ms c) :
    ∃ f, c.files[i]? = some f ∧ f.Follows (Chunk.split r.window text) alone path language := by
  have hn : 0 < r.maxConcurrent.toNat := by omega
  have hall : ∀ (j : Nat) (f : FileReview), c.files[j]? = some f → j = i →
      f.Follows (Chunk.split r.window text) alone path language := by
    induction h with
    | start =>
      intro j f hf hj
      simp only [of, hj, List.getElem?_map, hi, Option.map_some, Option.some.injEq] at hf
      rw [← hf]
      exact ⟨rfl, rfl, by simp, .inl ⟨rfl, [], by simp [Reviewer.batches_flatten hn], rfl⟩⟩
    | @move ms d e m h hok hs ih =>
      refine (step_iff.2 hs).files (P := fun j f => j = i → f.Follows _ alone path language)
        (fun j k f s hx hf hj => (hf hj).setStage k fun p s₀ x hp he => ?_)
        (fun j f hd hf hj => (hf hj).advance hd) ih
      rcases hx x he with ⟨rfl, hfile⟩
      rcases hok _ x rfl with ⟨g, q, s', hq, hy⟩
      rcases piece?_eq_some.1 hq with ⟨hg, hq⟩
      cases hfile.symm.trans hg
      cases hp.symm.trans hq
      rw [(hf hj).path_eq, (hf hj).language_eq] at hy
      exact ha p ((hf hj).mem hp) x hy
  have hlt : i < c.files.length := by
    rw [h.length]
    simp [of]
    exact (List.getElem?_eq_some_iff.1 hi).1
  exact ⟨c.files[i], List.getElem?_eq_getElem hlt, hall i _ (List.getElem?_eq_getElem hlt) rfl⟩

theorem Reaches.finished [Nonempty σ] (hr : 1 ≤ r.maxConcurrent)
    (hi : files[i]? = some (⟨path, text⟩, language))
    (ha : ∀ c ∈ Chunk.split r.window text, ∀ x, r.Yields w path language c x → x = .ok (alone c))
    (h : Reaches (Faithful r w) (of r files) ms c)
    (hstuck : ∀ m : Move, Faithful r w c m → m.next? c = none) {f : FileReview} (hf : c.files[i]? = some f) :
    f.result = some (.ok (Findings.dedupe
      ((Chunk.split r.window text).flatMap fun c => (alone c).findings))) := by
  rcases h.follows hr hi ha with ⟨g, hg, hfol⟩
  cases hf.symm.trans hg
  have hsubmitted (t : Ticket) (ht : c.stage? t = some .submitted) : False := by
    simpa [next?_request_of ht] using hstuck (.request t) (by simp [Faithful])
  have hcalling (t : Ticket) (ht : c.stage? t = some .calling) : False := by
    rcases stage?_eq_some.1 ht with ⟨g, p, hg, hp⟩
    let s : σ := Classical.ofNonempty
    have := hstuck (.release t ((r.reviewChunk w g.path g.language p).run s).1) (by
      intro t' x hx
      cases hx
      exact ⟨g, p, _, piece?_eq_some.2 ⟨hg, hp⟩, s, rfl⟩)
    simp [next?_release_of ht] at this
  have hdue (j : Nat) (g : FileReview) (hg : c.files[j]? = some g) : g.isDue = false := by
    simpa [Move.next?, hg] using hstuck (.advance j) (by simp [Faithful])
  have hc := (fair_of r files).reaches h
  exact hfol.result_of_isDone (hc.stuck (by omega) hsubmitted hcalling hdue).1 hf

end Course

theorem Schedule.review_result {σ : Type} {r : Reviewer} {w : World σ} {files : List (SourceFile × String)} {i : Nat}
    {path text language : String} {alone : Chunk → Outcome} {pauses : Nat} (hr : 1 ≤ r.maxConcurrent)
    (hi : files[i]? = some (⟨path, text⟩, language))
    (ha : ∀ c ∈ Chunk.split r.window text, ∀ x, r.Yields w path language c x → x = .ok (alone c))
    (hw : ∀ prompt st, ((w.call prompt).run st).1.pauses ≤ pauses) (st : σ) :
    ∃ f, (((review r w pauses files).run st).1).course.files[i]? = some f ∧
      f.result = some (.ok (Findings.dedupe
        ((Chunk.split r.window text).flatMap fun c => (alone c).findings))) := by
  rcases (settled_review hr pauses files st).orderly.reached with ⟨ms, h⟩
  rcases h.follows hr hi ha with ⟨f, hf, hfol⟩
  exact ⟨f, hf, hfol.result_of_isDone (review_isDone hr hw files st) hf⟩

theorem Schedule.review_single {σ : Type} {r : Reviewer} {w : World σ} {path text language : String}
    {alone : Chunk → Outcome} {pauses : Nat} (hr : 1 ≤ r.maxConcurrent)
    (ha : ∀ c ∈ Chunk.split r.window text, ∀ x, r.Yields w path language c x → x = .ok (alone c))
    (hw : ∀ prompt st, ((w.call prompt).run st).1.pauses ≤ pauses) (st : σ) :
    ∃ f, (((review r w pauses [(⟨path, text⟩, language)]).run st).1).course.files = [f] ∧
      f.result = some (.ok (Findings.dedupe
        ((Chunk.split r.window text).flatMap fun c => (alone c).findings))) := by
  rcases (settled_review (w := w) hr pauses [(⟨path, text⟩, language)] st).orderly.reached with ⟨ms, h⟩
  rcases List.length_eq_one_iff.1 h.length with ⟨g, hg⟩
  have hfile : [(SourceFile.mk path text, language)][0]? = some (⟨path, text⟩, language) := rfl
  rcases review_result hr hfile ha hw st with ⟨f, hf, hres⟩
  rw [hg] at hf
  cases hf
  exact ⟨g, hg, hres⟩

namespace Reviewer
variable {σ : Type} {r : Reviewer} {w : World σ} {reply : String → Reply}

/-- Of a file comes what its pieces come to alone, put together in their order: with any number of them
under way at once, any rests, any other files beside it, and in whatever order they are replied to. A
piece that fails takes nothing from the others. The schedules come to it with the turns that they have. -/
theorem reviewFile_order [Nonempty σ] (hr : 1 ≤ r.maxConcurrent)
    (hw : ∀ prompt s, ((w.call prompt).run s).1.reply = reply prompt) (path text language : String)
    (hc : ∀ c ∈ Chunk.split r.window text, ∀ s e, ((r.reviewChunk w path language c).run s).1 ≠ .error e) :
    ∃ (alone : Chunk → Outcome) (fs : List Finding),
      (∀ c ∈ Chunk.split r.window text, ∀ s, ((r.reviewChunk w path language c).run s).1 = .ok (alone c)) ∧
      fs = Findings.dedupe ((Chunk.split r.window text).flatMap fun c => (alone c).findings) ∧
      fs = Findings.dedupe (((Chunk.split r.window text).filter fun c => (alone c).fault?.isNone).flatMap
        fun c => (alone c).findings) ∧
      ∀ (m : Int) (d : Seconds), 1 ≤ m →
        (∀ s, (((r.paced m d).reviewFile w path text language).run s).1 = .ok fs) ∧
        ∀ (files : List (SourceFile × String)) (i : Nat), files[i]? = some (⟨path, text⟩, language) →
          (∀ ms c, Course.Reaches (Course.Faithful (r.paced m d) w) (Course.of (r.paced m d) files) ms c →
            ms.length ≤ (Course.of (r.paced m d) files).left ∧
            ∃ f, c.files[i]? = some f ∧ (f.result = none ∨ f.result = some (.ok fs)) ∧
              ((∀ m' : Move, Course.Faithful (r.paced m d) w c m' → m'.next? c = none) →
                f.result = some (.ok fs))) ∧
          ∀ (pauses : Nat) (st : σ), (∀ prompt s, ((w.call prompt).run s).1.pauses ≤ pauses) →
            (∃ f, (((Schedule.review (r.paced m d) w pauses files).run st).1).course.files[i]? = some f ∧
              f.result = some (.ok fs)) ∧
            ∃ s f, (((Schedule.reviewEach (r.paced m d) w pauses files).run st).1)[i]? = some s ∧
              s.course.files = [f] ∧ f.result = some (.ok fs) := by
  let s₀ : σ := Classical.ofNonempty
  let alone (c : Chunk) : Outcome :=
    ((r.reviewChunk w path language c).run s₀).1.toOption.getD (.found [])
  have halone (c : Chunk) (hmem : c ∈ Chunk.split r.window text) (s : σ) :
      ((r.reviewChunk w path language c).run s).1 = .ok (alone c) := by
    rw [reviewChunk_determined hw path language c s s₀]
    cases hx : ((r.reviewChunk w path language c).run s₀).1 with
    | error e => exact absurd hx (hc c hmem s₀ e)
    | ok o => simp [alone, hx, Except.toOption]
  refine ⟨alone, _, halone, rfl, by rw [Outcome.flatMap_of_fault], fun m d hm => ?_⟩
  have ha : ∀ c ∈ Chunk.split (r.paced m d).window text, ∀ x,
      (r.paced m d).Yields w path language c x → x = .ok (alone c) := by
    intro c hmem x hy
    rcases hy with ⟨s, rfl⟩
    rw [reviewChunk_paced (by omega) (by omega)]
    exact halone c hmem s
  refine ⟨reviewFile_eq (r := r.paced m d) hm ha, fun files i hi =>
    ⟨fun ms c h => ?_, fun pauses st hp => ⟨Schedule.review_result hm hi ha hp st, ?_⟩⟩⟩
  · rcases h.follows hm hi ha with ⟨f, hf, hfol⟩
    have hl := (Course.fair_of _ files).length_le h
    refine ⟨by omega, f, hf, ?_, fun hstuck => h.finished hm hi ha hstuck hf⟩
    rcases hfol.progress with ⟨hn, -⟩ | ⟨hres, -⟩
    · exact .inl hn
    · exact .inr hres
  · have heach := Schedule.reviewEach_eq (r.paced m d) w pauses files st
    rcases List.getElem?_eq_some_iff.1 hi with ⟨hlt, hfile⟩
    have hlt' := heach.length_eq ▸ hlt
    rcases heach.get hlt hlt' with ⟨st', hs⟩
    simp only [List.get_eq_getElem, hfile] at hs
    rcases Schedule.review_single hm ha hp st' with ⟨f, hf, hres⟩
    exact ⟨_, f, List.getElem?_eq_getElem hlt', hs ▸ hf, hres⟩

/-- The first of two pieces is never replied to, and the file comes to what the second does. -/
theorem reviewFile_order_partial :
    let r : Reviewer := ⟨⟨1, 0, by decide⟩, 2, .whole 0, .whole 5, 100⟩
    let w : World Unit := ⟨fun prompt _ =>
      (⟨if prompt = reviewPrompt ⟨"a", 1, 1, 0, 2⟩ "p" "Python" 100 then .silence
        else .content (.text "[\x7b\"line\": 1\x7d]"), 3⟩, ()), fun _ _ => ((), ()), Script.nesting⟩
    ∃ o, ((r.reviewChunk w "p" "Python" ⟨"b", 2, 2, 1, 2⟩).run ()).1 = .ok o ∧
      ∀ m d, 1 ≤ m → (((r.paced m d).reviewFile w "p" "a\nb" "Python").run ()).1 =
        .ok (Findings.dedupe o.findings) := by
  intro r w
  let reply (prompt : String) : Reply :=
    if prompt = reviewPrompt ⟨"a", 1, 1, 0, 2⟩ "p" "Python" 100 then .silence
    else .content (.text "[\x7b\"line\": 1\x7d]")
  have hw (prompt : String) (s : Unit) : ((w.call prompt).run s).1.reply = reply prompt := rfl
  have hsplit : Chunk.split r.window "a\nb" = [⟨"a", 1, 1, 0, 2⟩, ⟨"b", 2, 2, 1, 2⟩] := by cbv
  have hi : Answer.issues Script.nesting "[\x7b\"line\": 1\x7d]".toList = .ok [[("line", .int 1)]] := by cbv
  have hrun (c : Chunk) (s : Unit) : ((r.reviewChunk w "p" "Python" c).run s).1 =
      Outcome.ofReply Script.nesting r.timeout c "p" (reply (reviewPrompt c "p" "Python" 100)) := by
    rw [reviewChunk_eq, heard_eq (by decide) rfl, hw]
  have hc (c : Chunk) (s : Unit) (e : Failure) : ((r.reviewChunk w "p" "Python" c).run s).1 ≠ .error e := by
    rw [hrun]
    by_cases hp : reviewPrompt c "p" "Python" 100 = reviewPrompt ⟨"a", 1, 1, 0, 2⟩ "p" "Python" 100
    · simp [reply, hp, Outcome.ofReply]
    · have ht : (Reply.content (.text "[\x7b\"line\": 1\x7d]")).text? =
          some "[\x7b\"line\": 1\x7d]".toList := rfl
      simp only [reply, if_neg hp, Outcome.ofReply_text ht, Outcome.ofText, hi]
      simp
  rcases reviewFile_order (r := r) (by decide) hw "p" "a\nb" "Python" fun c _ => hc c with
    ⟨alone, fs, halone, hfs, -, hall⟩
  rw [hsplit] at halone hfs
  have hsilent : alone ⟨"a", 1, 1, 0, 2⟩ = Outcome.timedOut r.timeout := by
    have h := halone ⟨"a", 1, 1, 0, 2⟩ (by simp) ()
    have hreply : reply (reviewPrompt ⟨"a", 1, 1, 0, 2⟩ "p" "Python" 100) = .silence := if_pos rfl
    rw [hrun, hreply] at h
    exact (Except.ok.inj h).symm
  refine ⟨alone ⟨"b", 2, 2, 1, 2⟩, halone _ (by simp) (), fun m d hm => ?_⟩
  rw [(hall m d hm).1 (), hfs]
  simp [hsilent, Outcome.timedOut, Outcome.findings]

end Reviewer
end CodeAudit
