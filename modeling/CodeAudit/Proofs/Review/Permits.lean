import CodeAudit.Proofs.Review.Moves

/-!
The permits of a course. None is lost and none is made: each is free or held by a piece. Who waits does
so behind pieces that hold one, so that something can always happen until all is over.
-/
set_option autoImplicit false

namespace CodeAudit

def Stage.left : Stage → Nat
  | .submitted => 2
  | .waiting | .calling => 1
  | .ended _ => 0

namespace FileReview

def held (f : FileReview) : Nat := f.weight fun s => s.holds.toNat

theorem held_advance {f : FileReview} (h : f.isDue) : f.advance.held = f.held := by
  have hnone (he : f.isEnded) : f.held = 0 := by
    apply List.sum_eq_zero
    intro n hn
    rcases List.mem_map.1 hn with ⟨p, hp, rfl⟩
    rcases stage_of_isEnded he hp with ⟨x, hx⟩
    simp [hx, Stage.holds]
  have hadv := advanced h
  generalize f.advance = g at hadv
  cases hadv with
  | failed hg => rfl
  | finished he hg hr =>
    rw [hnone he]
    rfl
  | next he hg hr =>
    rw [hnone he]
    simp [held, weight, Stage.holds, Function.comp_def]

def ahead (f : FileReview) : Nat :=
  if f.result.isNone then 1 + (f.rest.map fun b => 1 + 2 * b.length).sum else 0

/-- How many moves are still to come, at most, and as many as that unless a review fails. -/
def left (f : FileReview) : Nat := f.ahead + f.weight Stage.left

theorem left_setStage (f : FileReview) (k : Nat) (p : Chunk × Stage) (s : Stage)
    (h : f.batch[k]? = some p) : (f.setStage s k).left + p.2.left = f.left + s.left := by
  have hw := weight_setStage Stage.left s h
  have ha : (f.setStage s k).ahead = f.ahead := rfl
  unfold left
  omega

theorem left_advance {f : FileReview} (h : f.isDue) : f.advance.left + 1 ≤ f.left := by
  have hn := result_of_isDue h
  have hadv := advanced h
  generalize f.advance = g at hadv
  cases hadv with
  | failed hg =>
    simp [left, ahead, hn, weight]
  | finished he hg hr =>
    simp [left, ahead, hn, weight]
    omega
  | next he hg hr =>
    simp [left, ahead, hn, hr, weight, Stage.left, Function.comp_def]
    omega

/-- No piece of the file has failed, and if it is done none is under way. -/
structure Unharmed (f : FileReview) : Prop where
  whole : ∀ p e, (p, Stage.ended (.error e)) ∉ f.batch
  emptied : f.result ≠ none → f.batch = []

theorem Unharmed.setStage {f : FileReview} (h : f.Unharmed) (k : Nat) {s : Stage}
    (hs : ∀ e, s ≠ .ended (.error e)) : (f.setStage s k).Unharmed where
  whole := by
    intro p e hp
    rcases mem_setStage hp with hp | ⟨q, hq, hx⟩
    · exact h.whole p e hp
    · exact hs e hx.symm
  emptied := by
    intro hr
    simp [FileReview.setStage, h.emptied hr]

theorem Unharmed.advance {f : FileReview} (h : f.Unharmed) (hd : f.isDue) : f.advance.Unharmed := by
  have hn := result_of_isDue hd
  have hadv := advanced hd
  generalize f.advance = g at hadv
  cases hadv with
  | failed hg =>
    rcases mem_of_failed hg with ⟨p, hp⟩
    exact absurd hp (h.whole p _)
  | finished he hg hr => exact ⟨by simp, by simp⟩
  | next he hg hr => exact ⟨by simp, by simp [hn]⟩

end FileReview

namespace Course

theorem held_eq_total (c : Course) : c.held = c.total FileReview.held := by
  unfold held total
  induction c.files with
  | nil => rfl
  | cons f fs ih =>
    have hb : f.batch.countP (·.2.holds) = f.held := by
      unfold FileReview.held FileReview.weight
      induction f.batch with
      | nil => rfl
      | cons p b ih => cases hp : p.2.holds <;> simp [hp, ih, Nat.add_comm]
    simp [List.countP_append, ih, hb]

theorem held_setStage {c : Course} {t : Ticket} {s₀ : Stage} (h : c.stage? t = some s₀) (s : Stage) :
    (setStage s t c).held + s₀.holds.toNat = c.held + s.holds.toNat := by
  rw [held_eq_total, held_eq_total]
  exact total_setStage (h := fun s => s.holds.toNat)
    (fun f k p s hp => FileReview.weight_setStage (fun s => s.holds.toNat) s hp) h s

theorem held_advance {c : Course} {i : Nat} {f : FileReview} (hf : c.files[i]? = some f) (hd : f.isDue) :
    (c.advance i).held = c.held := by
  have h := total_advance FileReview.held hf
  rw [FileReview.held_advance hd] at h
  rw [held_eq_total, held_eq_total]
  omega

theorem held_eq_zero_iff {c : Course} : c.held = 0 ↔ ∀ t, c.stage? t ≠ some .calling := by
  rw [held, List.countP_eq_zero]
  constructor
  · intro h t ht
    rcases stage?_eq_some.1 ht with ⟨f, p, hf, hp⟩
    exact h (p, .calling)
      (List.mem_flatMap.2 ⟨f, List.mem_of_getElem? hf, List.mem_of_getElem? hp⟩) rfl
  · intro h p hp hs
    rcases List.mem_flatMap.1 hp with ⟨f, hf, hp⟩
    rcases List.getElem?_of_mem hf with ⟨i, hf⟩
    rcases List.getElem?_of_mem hp with ⟨k, hp⟩
    rcases p with ⟨p, s⟩
    cases s with
    | calling => exact h ⟨i, k⟩ (stage?_eq_some.2 ⟨f, p, hf, hp⟩)
    | submitted | waiting | ended x => cases hs

/-- The permits are those of the reviewer, and the line holds who waits, in vain unless all are held. -/
structure Fair (m : Nat) (c : Course) : Prop where
  permits : c.held + c.free = m
  full : c.line ≠ [] → c.free = 0
  nodup : c.line.Nodup
  waiting : ∀ t, t ∈ c.line ↔ c.stage? t = some .waiting

theorem stage?_of (r : Reviewer) (files : List (SourceFile × String)) (t : Ticket) :
    (of r files).stage? t = none := by
  rw [stage?_eq]
  cases h : (of r files).files[t.file]? with
  | none => rfl
  | some f =>
    simp only [of, List.getElem?_map, Option.map_eq_some_iff] at h
    rcases h with ⟨a, ha, rfl⟩
    rfl

theorem fair_of (r : Reviewer) (files : List (SourceFile × String)) :
    (of r files).Fair r.maxConcurrent.toNat where
  permits := by
    rw [held_eq_zero_iff.2 fun t => by simp [stage?_of]]
    exact Nat.zero_add _
  full := by simp [of]
  nodup := List.nodup_nil
  waiting := by
    intro t
    rw [stage?_of]
    simp [of]

theorem Fair.take {n k : Nat} {c : Course} {t : Ticket} (hc : c.Fair n) (ht : c.stage? t = some .submitted)
    (hf : c.free = k + 1) : Fair n { setStage .calling t c with free := k } := by
  have hl : c.line = [] := by
    by_contra hl
    have := hc.full hl
    omega
  have hh : (setStage .calling t c).held + 0 = c.held + 1 := held_setStage ht .calling
  have hp := hc.permits
  refine ⟨?_, by simp [hl], hc.nodup, ?_⟩
  · change (setStage .calling t c).held + k = n
    omega
  · intro u
    change u ∈ c.line ↔ (setStage .calling t c).stage? u = _
    rw [stage?_setStage ht, hc.waiting]
    by_cases hu : u = t <;> simp [hu, ht]

theorem Fair.wait {n : Nat} {c : Course} {t : Ticket} (hc : c.Fair n) (ht : c.stage? t = some .submitted)
    (hf : c.free = 0) : Fair n { setStage .waiting t c with line := c.line ++ [t] } := by
  have hh : (setStage .waiting t c).held + 0 = c.held + 0 := held_setStage ht .waiting
  have hp := hc.permits
  have hn : t ∉ c.line := by simp [hc.waiting, ht]
  refine ⟨?_, fun _ => hf, ?_, ?_⟩
  · change (setStage .waiting t c).held + c.free = n
    omega
  · change (c.line ++ [t]).Nodup
    simp [List.nodup_append, hc.nodup]
    intro u hu hut
    exact hn (hut ▸ hu)
  · intro u
    change u ∈ c.line ++ [t] ↔ (setStage .waiting t c).stage? u = _
    rw [stage?_setStage ht, List.mem_append, hc.waiting]
    by_cases hu : u = t <;> simp [hu]

theorem Fair.giveBack {n : Nat} {c : Course} {t : Ticket} (hc : c.Fair n) (ht : c.stage? t = some .calling)
    (hl : c.line = []) (x : Except Failure Outcome) :
    Fair n { setStage (.ended x) t c with free := c.free + 1 } := by
  have hh : (setStage (.ended x) t c).held + 1 = c.held + 0 := held_setStage ht (.ended x)
  have hp := hc.permits
  refine ⟨?_, by simp [hl], hc.nodup, ?_⟩
  · change (setStage (.ended x) t c).held + (c.free + 1) = n
    omega
  · intro u
    change u ∈ c.line ↔ (setStage (.ended x) t c).stage? u = _
    rw [stage?_setStage ht, hc.waiting]
    by_cases hu : u = t <;> simp [hu, ht]

theorem Fair.first {n : Nat} {c : Course} {t u : Ticket} {line : List Ticket} (hc : c.Fair n)
    (ht : c.stage? t = some .calling) (hl : c.line = u :: line) (x : Except Failure Outcome) :
    u ≠ t ∧ c.stage? u = some .waiting ∧ (setStage (.ended x) t c).stage? u = some .waiting := by
  have hu : c.stage? u = some .waiting := (hc.waiting u).1 (by simp [hl])
  have hut : u ≠ t := by
    intro h
    simp [h, ht] at hu
  exact ⟨hut, hu, by simp [stage?_setStage ht, hut, hu]⟩

theorem Fair.handOver {n : Nat} {c : Course} {t u : Ticket} {line : List Ticket} (hc : c.Fair n)
    (ht : c.stage? t = some .calling) (hl : c.line = u :: line) (x : Except Failure Outcome) :
    Fair n { setStage .calling u (setStage (.ended x) t c) with line := line } := by
  have hu' := (hc.first ht hl x).2.2
  have hh : (setStage (.ended x) t c).held + 1 = c.held + 0 := held_setStage ht (.ended x)
  have hh' : (setStage .calling u (setStage (.ended x) t c)).held + 0 =
      (setStage (.ended x) t c).held + 1 := held_setStage hu' .calling
  have hp := hc.permits
  have hnd := hc.nodup
  rw [hl, List.nodup_cons] at hnd
  refine ⟨?_, fun _ => hc.full (by simp [hl]), hnd.2, ?_⟩
  · change (setStage .calling u (setStage (.ended x) t c)).held + c.free = n
    omega
  · intro v
    change v ∈ line ↔ (setStage .calling u (setStage (.ended x) t c)).stage? v = _
    rw [stage?_setStage hu', stage?_setStage ht]
    by_cases hv : v = u
    · simp [hv, hnd.1]
    · by_cases hvt : v = t
      · have hn : t ∉ c.line := by simp [hc.waiting, ht]
        simp [hl] at hn
        simp [hvt, hn]
      · simp [hv, hvt, ← hc.waiting, hl]

theorem Fair.advance {n i : Nat} {c : Course} {f : FileReview} (hc : c.Fair n) (hf : c.files[i]? = some f)
    (hd : f.isDue) : (c.advance i).Fair n := by
  refine ⟨?_, hc.full, hc.nodup, ?_⟩
  · rw [held_advance hf hd]
    exact hc.permits
  · intro u
    rw [stage?_advance hf hd (.inl rfl), ← hc.waiting]
    rfl

theorem Fair.step {n : Nat} {c d : Course} {m : Move} (hc : c.Fair n) (h : Step c m d) : d.Fair n := by
  cases h with
  | take ht hf => exact hc.take ht hf
  | wait ht hf => exact hc.wait ht hf
  | giveBack ht hl => exact hc.giveBack ht hl _
  | handOver ht hl => exact hc.handOver ht hl _
  | advance hf hd => exact hc.advance hf hd

theorem Fair.reaches {n : Nat} {ok : Course → Move → Prop} {c d : Course} {ms : List Move} (hc : c.Fair n)
    (h : Reaches ok c ms d) : d.Fair n := by
  induction h with
  | start => exact hc
  | move h hok hs ih => exact ih.step (step_iff.2 hs)

theorem Fair.idle {n : Nat} {c : Course} (hc : c.Fair n) (hn : 1 ≤ n)
    (hsubmitted : ∀ t, c.stage? t ≠ some .submitted) (hcalling : ∀ t, c.stage? t ≠ some .calling) :
    c.free = n ∧ ∀ t s, c.stage? t = some s → ∃ x, s = .ended x := by
  have hheld := held_eq_zero_iff.2 hcalling
  have hp := hc.permits
  have hfree : c.free = n := by omega
  have hline : c.line = [] := by
    by_contra hl
    have := hc.full hl
    omega
  refine ⟨hfree, fun t s ht => ?_⟩
  cases s with
  | submitted => exact absurd ht (hsubmitted t)
  | waiting =>
    have := (hc.waiting t).2 ht
    simp [hline] at this
  | calling => exact absurd ht (hcalling t)
  | ended x => exact ⟨x, rfl⟩

theorem result_of_ended {c : Course} (hended : ∀ t s, c.stage? t = some s → ∃ x, s = .ended x) {i : Nat}
    {f : FileReview} (hf : c.files[i]? = some f) (hd : f.isDue = false) : f.result ≠ none := by
  intro hr
  have he : f.isEnded = true := by
    simp only [FileReview.isEnded, List.all_eq_true]
    intro p hp
    rcases List.getElem?_of_mem hp with ⟨k, hk⟩
    rcases hended ⟨i, k⟩ p.2 (stage?_eq_some.2 ⟨f, p.1, hf, hk⟩) with ⟨x, hx⟩
    simp [hx, Stage.result?]
  simp [FileReview.isDue, hr, he] at hd

theorem isDone_of {c : Course} (h : ∀ (i : Nat) (f : FileReview), c.files[i]? = some f → f.result ≠ none) :
    c.isDone := by
  simp only [isDone, List.all_eq_true]
  intro f hf
  rcases List.getElem?_of_mem hf with ⟨i, hi⟩
  exact Option.isSome_iff_ne_none.2 (h i f hi)

/-- A course in which nobody asks, calls or is due is done, and has all its permits back. -/
theorem Fair.stuck {n : Nat} {c : Course} (hc : c.Fair n) (hn : 1 ≤ n)
    (hsubmitted : ∀ t, c.stage? t ≠ some .submitted) (hcalling : ∀ t, c.stage? t ≠ some .calling)
    (hdue : ∀ (i : Nat) (f : FileReview), c.files[i]? = some f → f.isDue = false) :
    c.isDone ∧ c.free = n ∧ ∀ t s, c.stage? t = some s → ∃ x, s = .ended x := by
  rcases hc.idle hn hsubmitted hcalling with ⟨hfree, hended⟩
  exact ⟨isDone_of fun i f hf => result_of_ended hended hf (hdue i f hf), hfree, hended⟩

def left (c : Course) : Nat := c.total FileReview.left

theorem left_setStage {c : Course} {t : Ticket} {s₀ : Stage} (h : c.stage? t = some s₀) (s : Stage) :
    (setStage s t c).left + s₀.left = c.left + s.left :=
  total_setStage FileReview.left_setStage h s

theorem Fair.left_lt {n : Nat} {c d : Course} {m : Move} (hc : c.Fair n) (h : Step c m d) :
    d.left < c.left := by
  cases h with
  | @take t k ht hf =>
    have hl : (setStage .calling t c).left + 2 = c.left + 1 := left_setStage ht .calling
    change (setStage .calling t c).left < _
    omega
  | @wait t ht hf =>
    have hl : (setStage .waiting t c).left + 2 = c.left + 1 := left_setStage ht .waiting
    change (setStage .waiting t c).left < _
    omega
  | @giveBack t x ht hl =>
    have hl : (setStage (.ended x) t c).left + 1 = c.left + 0 := left_setStage ht (.ended x)
    change (setStage (.ended x) t c).left < _
    omega
  | @handOver t u x line ht hl =>
    have hu' := (hc.first ht hl x).2.2
    have hl : (setStage (.ended x) t c).left + 1 = c.left + 0 := left_setStage ht (.ended x)
    have hl' : (setStage .calling u (setStage (.ended x) t c)).left + 1 =
        (setStage (.ended x) t c).left + 1 := left_setStage hu' .calling
    change (setStage .calling u (setStage (.ended x) t c)).left < _
    omega
  | @advance i f hf hd =>
    have ht := total_advance FileReview.left hf
    have hl := FileReview.left_advance hd
    unfold left
    omega

theorem Fair.length_le {n : Nat} {ok : Course → Move → Prop} {c d : Course} {ms : List Move}
    (hc : c.Fair n) (h : Reaches ok c ms d) : ms.length + d.left ≤ c.left := by
  induction h with
  | start => simp
  | move h hok hs ih =>
    have := (hc.reaches h).left_lt (step_iff.2 hs)
    simp
    omega

theorem Reaches.unharmed {r : Reviewer} {files : List (SourceFile × String)} {ok : Course → Move → Prop}
    {ms : List Move} {c : Course} (h : Reaches ok (of r files) ms c)
    (hms : ∀ t e, .release t (.error e) ∉ ms) (i : Nat) (f : FileReview) (hf : c.files[i]? = some f) :
    f.Unharmed := by
  revert i f
  induction h with
  | start =>
    intro i f hf
    simp only [of, List.getElem?_map, Option.map_eq_some_iff] at hf
    rcases hf with ⟨a, ha, rfl⟩
    exact ⟨by simp, by simp⟩
  | @move ms d e m h hok hs ih =>
    have hd := ih fun t e ht => hms t e (List.mem_append_left _ ht)
    refine (step_iff.2 hs).files (P := fun _ f => f.Unharmed) (fun i k f s hx hf => ?_)
      (fun i f hdue hf => hf.advance hdue) hd
    refine hf.setStage k fun e he => ?_
    rcases hx _ he with ⟨rfl, -⟩
    exact hms ⟨i, k⟩ e (by simp)

theorem held_of_unharmed {c : Course} (hd : c.isDone)
    (h : ∀ (i : Nat) (f : FileReview), c.files[i]? = some f → f.Unharmed) : c.held = 0 := by
  refine held_eq_zero_iff.2 fun t ht => ?_
  rcases stage?_eq_some.1 ht with ⟨f, p, hf, hp⟩
  simp only [isDone, List.all_eq_true] at hd
  have hr := hd f (List.mem_of_getElem? hf)
  have hb := (h _ f hf).emptied (by
    intro hn
    simp [hn] at hr)
  simp [hb] at hp

end Course
end CodeAudit
