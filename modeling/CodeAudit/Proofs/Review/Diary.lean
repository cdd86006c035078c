import CodeAudit.Proofs.Review.Gathered
import CodeAudit.Review.Schedule

/-!
What can be seen of reviews: when the model is asked, when the review of a piece ends, and when there is a
rest. A world keeps a diary of what is asked of it, and a schedule adds the ends. A review in order asks
about batch after batch, with its rests between them.
-/
set_option autoImplicit false

namespace CodeAudit

inductive Sign where
  | asked (prompt : String)
  /-- The review of the piece that the model was asked about is over, and so is the call. -/
  | ended (prompt : String)
  | rest (d : Seconds)
  deriving DecidableEq, Repr

namespace Sign

def asked? : Sign → Option String
  | .asked p => some p
  | _ => none

def ended? : Sign → Option String
  | .ended p => some p
  | _ => none

def isRest : Sign → Bool
  | .rest _ => true
  | _ => false

end Sign

def World.noted {σ : Type} (w : World σ) : World (σ × List Sign) where
  call prompt := fun (s, es) =>
    let (b, s) := (w.call prompt).run s
    (b, s, es ++ [.asked prompt])
  sleep d := fun (s, es) => ((), ((w.sleep d).run s).2, es ++ [.rest d])
  nesting := w.nesting

namespace World
variable {σ : Type}

theorem noted_sleep (w : World σ) (d : Seconds) (s : σ) (es : List Sign) :
    (w.noted.sleep d).run (s, es) = ((), ((w.sleep d).run s).2, es ++ [.rest d]) := rfl

end World

namespace Reviewer
variable {σ : Type} {r : Reviewer} {w : World σ} {path language : String}

def prompt (r : Reviewer) (path language : String) (c : Chunk) : String :=
  reviewPrompt c path language r.maxPromptChars

def rests (r : Reviewer) : List Sign := if r.delay.isPositive then [.rest r.delay] else []

theorem batches_eq {α : Type} {size : Nat} (h : 0 < size) (xs : List α) : batches size xs =
    (List.range ((xs.length + size - 1) / size)).map fun k => (xs.drop (k * size)).take size := by
  fun_induction batches size xs with
  | case1 => exact absurd h (Nat.lt_irrefl 0)
  | case2 size hne => simp [Nat.div_eq_of_lt (show size - 1 < size by omega)]
  | case3 n x r ih =>
    have hcount : ((x :: r).length + (n + 1) - 1) / (n + 1) =
        ((r.drop n).length + (n + 1) - 1) / (n + 1) + 1 := by
      rw [List.length_cons, List.length_drop, show r.length + 1 + (n + 1) - 1 = r.length + (n + 1) by omega,
        Nat.add_div_right _ (by omega)]
      rcases Nat.lt_or_ge r.length n with hlt | hge
      · rw [Nat.div_eq_of_lt (by omega), Nat.div_eq_of_lt (by omega)]
      · rw [show r.length - n + (n + 1) - 1 = r.length by omega]
    have hdrop (k : Nat) : (x :: r).drop ((k + 1) * (n + 1)) = (r.drop n).drop (k * (n + 1)) := by
      rw [Nat.add_one_mul, ← Nat.add_assoc, List.drop_succ_cons, List.drop_drop,
        Nat.add_comm n (k * (n + 1))]
    rw [ih (by omega), hcount, List.range_succ_eq_map, List.map_cons, List.map_map]
    simp [Function.comp_def, hdrop]

theorem reviewChunk_noted (hr : 1 ≤ r.maxConcurrent) (ht : r.timeout.isPositive) (c : Chunk) (s : σ)
    (es : List Sign) : (r.reviewChunk w.noted path language c).run (s, es) =
      (((r.reviewChunk w path language c).run s).1, ((r.reviewChunk w path language c).run s).2,
        es ++ [.asked (r.prompt path language c)]) := by
  have hr' : ¬r.maxConcurrent < 0 := by omega
  have ht' := isSpent_of_isPositive ht
  simp only [reviewChunk, ask, hr', ht', if_false, Bool.false_eq_true]
  rfl

theorem mapM_noted (hr : 1 ≤ r.maxConcurrent) (ht : r.timeout.isPositive) (cs : List Chunk) (s : σ)
    (es : List Sign) : (cs.mapM (r.reviewChunk w.noted path language)).run (s, es) =
      (((cs.mapM (r.reviewChunk w path language)).run s).1, ((cs.mapM (r.reviewChunk w path language)).run s).2,
        es ++ cs.map fun c => .asked (r.prompt path language c)) := by
  induction cs generalizing s es with
  | nil =>
    rw [List.map_nil, List.append_nil]
    rfl
  | cons c cs ih =>
    rw [mapM_cons_run, mapM_cons_run, reviewChunk_noted hr ht, ih, List.map_cons, List.append_assoc]
    rfl

theorem reviewBatches_run (r : Reviewer) (w : World σ) (path language : String) (b : List Chunk)
    (bs : List (List Chunk)) (s : σ) {fs : List Finding}
    (hb : gathered ((b.mapM (r.reviewChunk w path language)).run s).1 = .ok fs) :
    (r.reviewBatches w path language (b :: bs)).run s =
      let s := ((b.mapM (r.reviewChunk w path language)).run s).2
      let s := if !bs.isEmpty && r.delay.isPositive then ((w.sleep r.delay).run s).2 else s
      (((r.reviewBatches w path language bs).run s).1.map (fs ++ ·),
        ((r.reviewBatches w path language bs).run s).2) := by
  rw [reviewBatches, bind_run, hb]
  dsimp only
  cases !bs.isEmpty && r.delay.isPositive with
  | true => rfl
  | false => rfl

/-- The model is asked about batch after batch, each in order, and between two of them there is a rest. -/
theorem reviewBatches_noted (hr : 1 ≤ r.maxConcurrent) (ht : r.timeout.isPositive) {bs : List (List Chunk)}
    (hc : ∀ c ∈ bs.flatten, ∀ s e, ((r.reviewChunk w path language c).run s).1 ≠ .error e) (s : σ)
    (es : List Sign) : ((r.reviewBatches w.noted path language bs).run (s, es)).2.2 =
      es ++ r.rests.intercalate (bs.map fun b => b.map fun c => .asked (r.prompt path language c)) := by
  induction bs generalizing s es with
  | nil =>
    rw [reviewBatches, List.map_nil, List.intercalate_nil, List.append_nil]
    rfl
  | cons b bs ih =>
    have hb : ∃ fs, gathered ((b.mapM (r.reviewChunk w.noted path language)).run (s, es)).1 = .ok fs := by
      rw [mapM_noted hr ht]
      cases hg : gathered ((b.mapM (r.reviewChunk w path language)).run s).1 with
      | ok fs => exact ⟨fs, rfl⟩
      | error e =>
        rcases exists_of_mem_right (mapM_yields b s) (gathered_eq_error hg) with ⟨c, hmem, s', he⟩
        exact absurd he (hc c (by simp [hmem]) s' e)
    rcases hb with ⟨fs, hfs⟩
    have hbs := ih fun c hmem => hc c (List.mem_append_right b hmem)
    rw [reviewBatches_run r w.noted path language b bs _ hfs, mapM_noted hr ht]
    dsimp only
    -- There is a rest after the batch unless it is the last one.
    cases bs with
    | nil => simp [hbs]
    | cons b' bs =>
      simp only [List.map_cons, List.intercalate_cons_cons] at hbs ⊢
      by_cases hd : r.delay.isPositive = true
      · simp [hd, World.noted_sleep, hbs, rests]
      · simp [hd, hbs, rests]

end Reviewer

def Course.prompt? (r : Reviewer) (c : Course) (t : Ticket) : Option String :=
  (c.piece? t).map fun (f, p, _) => r.prompt f.path f.language p

namespace Schedule
variable {σ : Type} {r : Reviewer} {w : World σ}

def ends (r : Reviewer) (s : Schedule) : List Sign :=
  match s.queue with
  | (0, .release t _) :: _ => ((s.course.prompt? r t).map Sign.ended).toList
  | _ => []

/-- A schedule turn after turn, with a diary. -/
def watch (r : Reviewer) (w : World σ) :
    Nat → Schedule → StateM (σ × List Sign) Schedule
  | 0, s => return s
  | fuel + 1, s => do
    if s.course.isDone then return s
    else
      modify fun (st, es) => (st, es ++ s.ends r)
      watch r w fuel (← step r w.noted s)

def signs (r : Reviewer) (s : Schedule) : List Sign :=
  match s.queue with
  | (0, .advance i) :: _ =>
    match s.course.files[i]? with
    | some f => if f.isDue && f.pauses then r.rests else []
    | none => []
  | (0, .call t) :: _ => ((s.course.prompt? r t).map Sign.asked).toList
  | (0, .release t _) :: _ => ((s.course.prompt? r t).map Sign.ended).toList
  | _ => []

def answered (t : Ticket) (b : Behaviour) (s : Schedule) : Schedule :=
  let s := { s with inFlight := s.inFlight + 1, peak := max s.peak (s.inFlight + 1) }
  match b.reply, b.pauses with
  | .silence, _ => { s with silent := s.silent ++ [t] }
  | reply, 0 => ended t reply s
  | reply, n + 1 => later n (.reply t reply) s

theorem call_run (ht : r.timeout.isPositive) {s : Schedule} {t : Ticket} {f : FileReview} {p : Chunk}
    {y : Stage} (hp : s.course.piece? t = some (f, p, y)) (st : σ) : (call r w t s).run st =
      (answered t ((w.call (r.prompt f.path f.language p)).run st).1 s,
        ((w.call (r.prompt f.path f.language p)).run st).2) := by
  have ht' := Reviewer.isSpent_of_isPositive ht
  simp only [call, hp, ht', Bool.false_eq_true, if_false, Reviewer.bind_run, Reviewer.prompt]
  rcases (w.call (reviewPrompt p f.path f.language r.maxPromptChars)).run st with ⟨⟨reply, pauses⟩, st'⟩
  cases reply with
  | silence => rfl
  | content v | failure e => cases pauses <;> rfl

/-- The diary changes nothing about a turn. -/
theorem turn_noted (ht : r.timeout.isPositive) (s : Schedule) (st : σ) (es : List Sign) :
    (step r w.noted s).run (st, es ++ s.ends r) =
      (((step r w s).run st).1, ((step r w s).run st).2, es ++ s.signs r) := by
  rcases s with ⟨course, _ | ⟨⟨_ | k, task⟩, queue⟩, silent, handed, newcomers, inFlight, peak⟩
  · simp only [ends, signs, List.append_nil]
    rfl
  · cases task with
    | advance i =>
      simp only [ends, signs, step, perform, advance, List.append_nil]
      cases hf : course.files[i]? with
      | none =>
        simp
        rfl
      | some f =>
        by_cases hd : f.isDue
        · by_cases hp : f.pauses
          · by_cases hr : r.delay.isPositive
            · simp [hd, hp, hr, Reviewer.rests]
              rfl
            · simp [hd, hp, hr, Reviewer.rests]
              rfl
          · simp [hd, hp]
            rfl
        · simp [hd]
          rfl
    | call t =>
      simp only [ends, signs, step, perform, Course.prompt?, List.append_nil]
      cases hp : course.piece? t with
      | none =>
        simp [call, hp]
        rfl
      | some q =>
        rcases q with ⟨f, p, y⟩
        rw [call_run ht hp, call_run ht hp]
        rfl
    | release t x => rfl
    | request t | resume t | reply t x =>
      simp only [ends, signs, List.append_nil]
      rfl
  · simp only [ends, signs, List.append_nil]
    rfl

theorem watch_succ (ht : r.timeout.isPositive) {s : Schedule}
    (hs : ¬s.course.isDone = true) (fuel : Nat) (st : σ) (es : List Sign) :
    (watch r w (fuel + 1) s).run (st, es) =
      (watch r w fuel ((step r w s).run st).1).run (((step r w s).run st).2, es ++ s.signs r) := by
  have hturn := turn_noted (w := w) ht s st es
  rw [watch, if_neg hs]
  change (watch r w fuel ((step r w.noted s).run (st, es ++ s.ends r)).1).run
    ((step r w.noted s).run (st, es ++ s.ends r)).2 = _
  rw [hturn]

theorem watch_run (ht : r.timeout.isPositive) (fuel : Nat) (s : Schedule) (st : σ)
    (es : List Sign) :
    ((watch r w fuel s).run (st, es)).1 = ((run r w fuel s).run st).1 ∧
      ((watch r w fuel s).run (st, es)).2.1 = ((run r w fuel s).run st).2 := by
  induction fuel generalizing s st es with
  | zero => exact ⟨rfl, rfl⟩
  | succ fuel ih =>
    by_cases hs : s.course.isDone = true
    · rw [watch, run, if_pos hs, if_pos hs]
      exact ⟨rfl, rfl⟩
    · rw [watch_succ ht hs, run, if_neg hs]
      exact ih _ _ _

end Schedule
end CodeAudit
