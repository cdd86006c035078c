import CodeAudit.Proofs.Review.Diary
import CodeAudit.Proofs.Review.Moves

set_option autoImplicit false

namespace CodeAudit

/-- The diary of one batch: each piece is asked about, in order, and then its review ends. -/
structure Batched (prompts : List String) (es : List Sign) : Prop where
  asked : es.filterMap Sign.asked? = prompts
  ended : (es.filterMap Sign.ended?).Perm prompts
  after : ∀ p, p <+: es → (p.filterMap Sign.ended?).Subperm (p.filterMap Sign.asked?)
  restless : ∀ e ∈ es, e.isRest = false

def Bounded (m : Nat) (es : List Sign) : Prop :=
  ∀ p, p <+: es → (p.filterMap Sign.asked?).length ≤ (p.filterMap Sign.ended?).length + m

theorem Bounded.concat {m : Nat} {es : List Sign} (h : Bounded m es) (x : Sign)
    (hx : ((es ++ [x]).filterMap Sign.asked?).length ≤ ((es ++ [x]).filterMap Sign.ended?).length + m) :
    Bounded m (es ++ [x]) := by
  intro p hp
  rcases List.prefix_concat_iff.1 hp with rfl | hp
  · exact hx
  · exact h p hp

theorem Bounded.concat_of_not_asked {m : Nat} {es : List Sign} (h : Bounded m es) {x : Sign}
    (hx : x.asked? = none) : Bounded m (es ++ [x]) := by
  refine h.concat x ?_
  have := h es List.prefix_rfl
  simp only [List.filterMap_append, List.length_append, List.filterMap_cons, hx]
  simp
  omega

theorem intercalate_concat {α : Type} (sep : List α) (xss : List (List α)) (xs : List α) :
    sep.intercalate (xss ++ [xs]) = (xss.map (· ++ sep)).flatten ++ xs := by
  induction xss with
  | nil => simp
  | cons ys xss ih =>
    cases xss with
    | nil => simp [List.intercalate_cons_cons]
    | cons zs xss => simp only [List.cons_append, List.intercalate_cons_cons] at ih ⊢; simp [ih]

namespace Reviewer
variable {r : Reviewer}

theorem filterMap_rests (g : Sign → Option String) (hg : ∀ d, g (.rest d) = none) :
    r.rests.filterMap g = [] := by
  unfold rests
  split <;> simp [hg]

theorem countP_isRest {bs : List (List String)} {ess : List (List Sign)} (h : List.Forall₂ Batched bs ess) :
    (r.rests.intercalate ess).countP Sign.isRest = if r.delay.isPositive then bs.length - 1 else 0 := by
  have hrests : r.rests.countP Sign.isRest = if r.delay.isPositive then 1 else 0 := by
    unfold rests
    split <;> simp [Sign.isRest]
  have hbatch {ps : List String} {es : List Sign} (h : Batched ps es) : es.countP Sign.isRest = 0 := by
    simpa [List.countP_eq_zero] using h.restless
  induction h with
  | nil => simp
  | @cons ps es bs ess hes hess ih =>
    cases hess with
    | nil => simp [hbatch hes]
    | cons hes' hess =>
      rw [List.intercalate_cons_cons, List.countP_append, List.countP_append, ih, hbatch hes, hrests]
      split
      · simp
        omega
      · rfl

theorem filterMap_asked_intercalate (ess : List (List Sign)) :
    (r.rests.intercalate ess).filterMap Sign.asked? = (ess.map fun es => es.filterMap Sign.asked?).flatten := by
  induction ess with
  | nil => rfl
  | cons es ess ih =>
    cases ess with
    | nil => simp
    | cons es' ess =>
      rw [List.intercalate_cons_cons, List.filterMap_append, List.filterMap_append, ih,
        filterMap_rests Sign.asked? fun _ => rfl, List.append_nil]
      rfl

theorem asked_intercalate {bs : List (List String)} {ess : List (List Sign)}
    (h : List.Forall₂ Batched bs ess) : (r.rests.intercalate ess).filterMap Sign.asked? = bs.flatten := by
  rw [filterMap_asked_intercalate]
  congr 1
  induction h with
  | nil => rfl
  | cons hes _ ih => rw [List.map_cons, hes.asked, ih]

theorem balanced {bs : List (List String)} {ess : List (List Sign)} (h : List.Forall₂ Batched bs ess) :
    ((ess.map (· ++ r.rests)).flatten.filterMap Sign.asked?).length =
      ((ess.map (· ++ r.rests)).flatten.filterMap Sign.ended?).length := by
  induction h with
  | nil => rfl
  | cons hes hess ih =>
    have hlength := hes.ended.length_eq
    simp only [List.map_cons, List.flatten_cons, List.filterMap_append, List.length_append, ih, hes.asked,
      filterMap_rests Sign.asked? fun _ => rfl, filterMap_rests Sign.ended? fun _ => rfl, hlength]

end Reviewer

namespace FileReview

/-- The pieces of the batch under way whose review has ended. -/
def closed (f : FileReview) : List Chunk := (f.batch.filter (·.2.result?.isSome)).map (·.1)

variable {f : FileReview} {k j : Nat} {p : Chunk} {s₀ s : Stage}

theorem batch_setStage (hp : f.batch[j]? = some (p, s₀)) (s : Stage) :
    f.batch = f.batch.take j ++ (p, s₀) :: f.batch.drop (j + 1) ∧
      (f.setStage s j).batch = f.batch.take j ++ (p, s) :: f.batch.drop (j + 1) := by
  rcases List.getElem?_eq_some_iff.1 hp with ⟨hj, hp⟩
  constructor
  · rw [← hp, List.cons_getElem_drop_succ, List.take_append_drop]
  · rw [FileReview.setStage, List.modify_eq_take_cons_drop hj, hp]

theorem map_fst_setStage (s : Stage) (j : Nat) :
    (f.setStage s j).batch.map (·.1) = f.batch.map (·.1) := by
  apply List.ext_getElem?
  intro i
  simp only [FileReview.setStage, List.getElem?_map, List.getElem?_modify]
  cases f.batch[i]? <;> simp
  split <;> rfl

theorem closed_setStage (hp : f.batch[j]? = some (p, s₀)) (h₀ : s₀.result? = none) (h : s.result? = none) :
    (f.setStage s j).closed = f.closed := by
  rcases batch_setStage hp s with ⟨hb, hb'⟩
  rw [closed, closed, hb', List.filter_append, List.map_append]
  conv_rhs => rw [hb, List.filter_append, List.map_append]
  simp [h₀, h]

theorem closed_setStage_ended (hp : f.batch[j]? = some (p, s₀)) (h₀ : s₀.result? = none)
    (x : Except Failure Outcome) : (f.setStage (.ended x) j).closed.Perm (f.closed ++ [p]) := by
  rcases batch_setStage hp (.ended x) with ⟨hb, hb'⟩
  have hclosed : f.closed = ((f.batch.take j).filter (·.2.result?.isSome)).map (·.1) ++
      ((f.batch.drop (j + 1)).filter (·.2.result?.isSome)).map (·.1) := by
    rw [closed]
    conv_lhs => rw [hb, List.filter_append, List.map_append]
    simp [h₀]
  rw [closed, hb', hclosed, List.filter_append, List.map_append]
  simp only [List.append_assoc, Stage.result?, List.filter_cons, Option.isSome_some, if_true, List.map_cons]
  exact List.Perm.append_left _ (List.perm_append_singleton _ _).symm

theorem closed_of_isEnded (h : f.isEnded) : f.closed = f.batch.map (·.1) := by
  rw [closed, List.filter_eq_self.2]
  simpa [isEnded] using h

theorem closed_sublist (h : ∀ i p s, k ≤ i → f.batch[i]? = some (p, s) → s.result? = none) :
    f.closed.Sublist ((f.batch.take k).map (·.1)) := by
  have hlater : (f.batch.drop k).filter (·.2.result?.isSome) = [] := by
    rw [List.filter_eq_nil_iff]
    rintro ⟨p, s⟩ hp
    rcases List.getElem?_of_mem hp with ⟨i, hi⟩
    rw [List.getElem?_drop] at hi
    simp [h (k + i) p s (by omega) hi]
  have hclosed : f.closed = ((f.batch.take k).filter (·.2.result?.isSome)).map (·.1) := by
    rw [closed]
    conv_lhs => rw [← List.take_append_drop k f.batch, List.filter_append, hlater, List.append_nil]
  rw [hclosed]
  exact List.filter_sublist.map _

end FileReview

/-- The diary of a batch whose first `k` pieces have been asked about. -/
structure Begun (r : Reviewer) (f : FileReview) (k : Nat) (es : List Sign) : Prop where
  asked : es.filterMap Sign.asked? = ((f.batch.take k).map (·.1)).map (r.prompt f.path f.language)
  ended : (es.filterMap Sign.ended?).Perm (f.closed.map (r.prompt f.path f.language))
  after : ∀ p, p <+: es → (p.filterMap Sign.ended?).Subperm (p.filterMap Sign.asked?)
  restless : ∀ e ∈ es, e.isRest = false

namespace Begun
variable {r : Reviewer} {f : FileReview} {k j : Nat} {p : Chunk} {s₀ s : Stage} {es : List Sign}

theorem start (h : ∀ p ∈ f.batch, p.2.result? = none) : Begun r f 0 [] where
  asked := by simp
  ended := by
    have hclosed : f.closed = [] := by
      simp only [FileReview.closed, List.map_eq_nil_iff, List.filter_eq_nil_iff]
      intro p hp
      simp [h p hp]
    simp [hclosed]
  after := by
    intro p hp
    simp [List.prefix_nil.1 hp]
  restless := by simp

theorem ask (h : Begun r f k es) (hp : f.batch[k]? = some (p, s)) :
    Begun r f (k + 1) (es ++ [.asked (r.prompt f.path f.language p)]) where
  asked := by simp [h.asked, List.take_add_one, hp, Sign.asked?]
  ended := by simpa [List.filterMap_cons, Sign.ended?] using h.ended
  after := by
    intro q hq
    rcases List.prefix_concat_iff.1 hq with rfl | hq
    · have hall := h.after es List.prefix_rfl
      simp only [List.filterMap_append]
      exact List.Subperm.trans (by simpa [List.filterMap_cons, Sign.ended?] using hall)
        (List.sublist_append_left _ _).subperm
    · exact h.after q hq
  restless := by
    intro e he
    rcases List.mem_append.1 he with he | he
    · exact h.restless e he
    · simp only [List.mem_singleton] at he
      rw [he]
      rfl

theorem goOn (h : Begun r f k es) (hp : f.batch[j]? = some (p, s₀)) (h₀ : s₀.result? = none)
    (hs : s.result? = none) : Begun r (f.setStage s j) k es where
  asked := by
    change _ = (((f.setStage s j).batch.take k).map (·.1)).map (r.prompt f.path f.language)
    rw [List.map_take, FileReview.map_fst_setStage, ← List.map_take]
    exact h.asked
  ended := by
    rw [FileReview.closed_setStage hp h₀ hs]
    exact h.ended
  after := h.after
  restless := h.restless

theorem finish (h : Begun r f k es) (hp : f.batch[j]? = some (p, s₀)) (h₀ : s₀.result? = none)
    (x : Except Failure Outcome)
    (hlater : ∀ i p s, k ≤ i → (f.setStage (.ended x) j).batch[i]? = some (p, s) → s.result? = none) :
    Begun r (f.setStage (.ended x) j) k (es ++ [.ended (r.prompt f.path f.language p)]) := by
  have hasked : (es ++ [Sign.ended (r.prompt f.path f.language p)]).filterMap Sign.asked? =
      (((f.setStage (.ended x) j).batch.take k).map (·.1)).map (r.prompt f.path f.language) := by
    rw [List.map_take, FileReview.map_fst_setStage, ← List.map_take, ← h.asked]
    simp [List.filterMap_cons, Sign.asked?]
  have hclosed : ((es ++ [Sign.ended (r.prompt f.path f.language p)]).filterMap Sign.ended?).Perm
      ((f.setStage (.ended x) j).closed.map (r.prompt f.path f.language)) := by
    refine List.Perm.trans ?_ ((FileReview.closed_setStage_ended hp h₀ x).map _).symm
    simpa [List.filterMap_cons, Sign.ended?] using h.ended.append_right [r.prompt f.path f.language p]
  refine ⟨hasked, hclosed, fun q hq => ?_, fun e he => ?_⟩
  · rcases List.prefix_concat_iff.1 hq with rfl | hq
    · rw [hasked]
      exact (hclosed.subperm).trans ((FileReview.closed_sublist hlater).map _).subperm
    · exact h.after q hq
  · rcases List.mem_append.1 he with he | he
    · exact h.restless e he
    · simp only [List.mem_singleton] at he
      rw [he]
      rfl

theorem batched (h : Begun r f f.batch.length es) (he : f.isEnded) :
    Batched ((f.batch.map (·.1)).map (r.prompt f.path f.language)) es where
  asked := by rw [h.asked, List.take_length]
  ended := by
    rw [← FileReview.closed_of_isEnded he]
    exact h.ended
  after := h.after
  restless := h.restless

end Begun

/-- The diary of a review: of the batches before, and of the batch under way, whose first `k` pieces have
been asked about. -/
structure Told (r : Reviewer) (bs : List (List Chunk)) (f : FileReview) (k : Nat) (es : List Sign) : Prop where
  written : ∃ past ess pre cur, bs = past ++ f.batch.map (·.1) :: f.rest ∧
    List.Forall₂ Batched (past.map fun b => b.map (r.prompt f.path f.language)) ess ∧
    pre = (ess.map (· ++ r.rests)).flatten ∧ Begun r f k cur ∧ es = pre ++ cur
  bounded : Bounded r.maxConcurrent.toNat es

namespace Told
variable {r : Reviewer} {bs : List (List Chunk)} {f : FileReview} {k j : Nat} {p : Chunk} {s₀ s : Stage}
  {es : List Sign}

theorem mem (h : Told r bs f k es) : f.batch.map (·.1) ∈ bs := by
  rcases h.written with ⟨past, _, _, _, hall, -⟩
  simp [hall]

theorem ask (h : Told r bs f k es) (hbs : ∀ b ∈ bs, b.length ≤ r.maxConcurrent.toNat)
    (hp : f.batch[k]? = some (p, s)) :
    Told r bs f (k + 1) (es ++ [.asked (r.prompt f.path f.language p)]) := by
  rcases h.written with ⟨past, ess, pre, cur, hall, hess, hpre, hcur, rfl⟩
  refine ⟨⟨past, ess, pre, _, hall, hess, hpre, hcur.ask hp, by rw [List.append_assoc]⟩,
    h.bounded.concat _ ?_⟩
  have hsize := hbs _ h.mem
  have hk := (List.getElem?_eq_some_iff.1 hp).1
  have hbalanced := Reviewer.balanced (r := r) hess
  rw [← hpre] at hbalanced
  simp [List.filterMap_cons, Sign.asked?, Sign.ended?, hcur.asked] at hsize ⊢
  omega

theorem goOn (h : Told r bs f k es) (hp : f.batch[j]? = some (p, s₀)) (h₀ : s₀.result? = none)
    (hs : s.result? = none) : Told r bs (f.setStage s j) k es := by
  rcases h.written with ⟨past, ess, pre, cur, hall, hess, hpre, hcur, hes⟩
  refine ⟨⟨past, ess, pre, cur, ?_, hess, hpre, hcur.goOn hp h₀ hs, hes⟩, h.bounded⟩
  rw [FileReview.map_fst_setStage]
  exact hall

theorem finish (h : Told r bs f k es) (hp : f.batch[j]? = some (p, s₀)) (h₀ : s₀.result? = none)
    (x : Except Failure Outcome)
    (hlater : ∀ i p s, k ≤ i → (f.setStage (.ended x) j).batch[i]? = some (p, s) → s.result? = none) :
    Told r bs (f.setStage (.ended x) j) k (es ++ [.ended (r.prompt f.path f.language p)]) := by
  rcases h.written with ⟨past, ess, pre, cur, hall, hess, hpre, hcur, rfl⟩
  refine ⟨⟨past, ess, pre, _, ?_, hess, hpre, hcur.finish hp h₀ x hlater, by rw [List.append_assoc]⟩,
    h.bounded.concat_of_not_asked rfl⟩
  rw [FileReview.map_fst_setStage]
  exact hall

theorem start {g : FileReview} {b : List Chunk} {rest : List (List Chunk)} (hbs : bs = b :: rest)
    (hb : g.batch = b.map fun c => (c, .submitted)) (hrest : g.rest = rest) : Told r bs g 0 [] where
  written := ⟨[], [], [], [], by simp [hbs, hb, hrest, Function.comp_def], .nil, rfl,
    .start (by simp [hb, Stage.result?]), rfl⟩
  bounded := by
    intro p hp
    simp [List.prefix_nil.1 hp]

theorem next {g : FileReview} {b : List Chunk} {rest : List (List Chunk)}
    (h : Told r bs f f.batch.length es) (he : f.isEnded) (hf : f.rest = b :: rest)
    (hb : g.batch = b.map fun c => (c, .submitted)) (hrest : g.rest = rest) (hpath : g.path = f.path)
    (hlanguage : g.language = f.language) : Told r bs g 0 (es ++ r.rests) := by
  rcases h.written with ⟨past, ess, pre, cur, hall, hess, hpre, hcur, rfl⟩
  refine ⟨⟨past ++ [f.batch.map (·.1)], ess ++ [cur], _, [], ?_, ?_, rfl, .start (by simp [hb, Stage.result?]),
    by simp [hpre]⟩, ?_⟩
  · simp [hall, hf, hb, hrest, Function.comp_def]
  · rw [List.map_append, hpath, hlanguage]
    exact List.rel_append hess (.cons (hcur.batched he) .nil)
  · unfold Reviewer.rests
    split
    · exact h.bounded.concat_of_not_asked rfl
    · rw [List.append_nil]
      exact h.bounded

theorem complete (h : Told r bs f f.batch.length es) (he : f.isEnded) (hf : f.rest = []) :
    ∃ ess, List.Forall₂ Batched (bs.map fun b => b.map (r.prompt f.path f.language)) ess ∧
      es = r.rests.intercalate ess := by
  rcases h.written with ⟨past, ess, pre, cur, hall, hess, hpre, hcur, rfl⟩
  refine ⟨ess ++ [cur], ?_, by rw [intercalate_concat, hpre]⟩
  rw [hall, hf, List.map_append]
  exact List.rel_append hess (.cons (hcur.batched he) .nil)

end Told
end CodeAudit
