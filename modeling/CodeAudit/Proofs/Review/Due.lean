import CodeAudit.Proofs.Review.Permits

set_option autoImplicit false

namespace CodeAudit

namespace FileReview

theorem isDue_setStage {f : FileReview} {k : Nat} {p : Chunk} {s₀ s : Stage}
    (hp : f.batch[k]? = some (p, s₀)) (h : s.result? = s₀.result?) : (f.setStage s k).isDue = f.isDue := by
  have hb : (f.setStage s k).batch.map (·.2.result?) = f.batch.map (·.2.result?) := by
    apply List.ext_getElem?
    intro i
    simp only [setStage, List.getElem?_map, List.getElem?_modify]
    by_cases hi : k = i
    · subst hi
      simp [hp, h]
    · simp [hi]
  have hr (g : FileReview) : g.results = (g.batch.map (·.2.result?)).filterMap id := by
    simp [results, List.filterMap_map]
  have he (g : FileReview) : g.isEnded = (g.batch.map (·.2.result?)).all (·.isSome) := by
    simp [isEnded, List.all_map, Function.comp_def]
  have hres : (f.setStage s k).result = f.result := rfl
  simp only [isDue, isFailed, hr, he, hb, hres]

theorem isDue_advance {f : FileReview} (h : f.isDue) (hrest : ∀ b ∈ f.rest, b ≠ []) :
    f.advance.isDue = false := by
  have hadv := advanced h
  generalize f.advance = g at hadv
  cases hadv with
  | failed hg => simp [isDue]
  | finished he hg hr => simp [isDue]
  | @next fs b rest he hg hr =>
    cases b with
    | nil => exact absurd rfl (hrest [] (by simp [hr]))
    | cons c b => simp [isDue, isFailed, results, isEnded, Stage.result?]

theorem rest_advance {f : FileReview} (h : f.isDue) {b : List Chunk} (hb : b ∈ f.advance.rest) :
    b ∈ f.rest := by
  have hadv := advanced h
  generalize f.advance = g at hadv hb
  cases hadv with
  | failed hg => exact hb
  | finished he hg hr => exact hb
  | next he hg hr => simp [hr, hb]

end FileReview

theorem Reviewer.ne_nil_of_mem_batches {α : Type} {size : Nat} {xs b : List α} (h : b ∈ batches size xs) :
    b ≠ [] := by
  fun_induction batches size xs with
  | case1 => simp at h
  | case2 => simp at h
  | case3 n x r ih =>
    rcases List.mem_cons.1 h with rfl | h
    · simp
    · exact ih h

namespace Course
variable {c d : Course} {t : Ticket} {i : Nat}

def isDueAt (c : Course) (i : Nat) : Bool := (c.files[i]?.map (·.isDue)).getD false

theorem isDueAt_setStage {s₀ s : Stage} (ht : c.stage? t = some s₀) (h : s.result? = s₀.result?) (i : Nat) :
    (setStage s t c).isDueAt i = c.isDueAt i := by
  rcases stage?_eq_some.1 ht with ⟨f, p, hf, hp⟩
  rw [isDueAt, setStage_eq, List.getElem?_modify]
  by_cases hi : t.file = i
  · subst hi
    simp [isDueAt, hf, FileReview.isDue_setStage hp h]
  · simp [isDueAt, hi]

theorem isDueAt_setStage_of_ne (hi : t.file ≠ i) (s : Stage) : (setStage s t c).isDueAt i = c.isDueAt i := by
  rw [isDueAt, setStage_eq, List.getElem?_modify]
  simp [isDueAt, hi]

theorem isDueAt_request (ht : c.stage? t = some .submitted) (i : Nat) :
    (c.request t).isDueAt i = c.isDueAt i := by
  cases hf : c.free with
  | zero =>
    rw [request_of_full hf]
    exact isDueAt_setStage (s := .waiting) ht rfl i
  | succ k =>
    rw [request_of_free hf]
    exact isDueAt_setStage (s := .calling) ht rfl i

theorem isDueAt_release {n : Nat} (hc : c.Fair n) (ht : c.stage? t = some .calling) (hi : t.file ≠ i)
    (x : Except Failure Outcome) : (c.release x t).isDueAt i = c.isDueAt i := by
  cases hl : c.line with
  | nil =>
    rw [release_of_empty hl]
    exact isDueAt_setStage_of_ne hi (.ended x)
  | cons u line =>
    rw [release_of_line hl]
    exact (isDueAt_setStage (s := .calling) (hc.first ht hl x).2.2 rfl i).trans
      (isDueAt_setStage_of_ne hi (.ended x))

theorem isDueAt_advance_of_ne {j : Nat} (hi : j ≠ i) : (c.advance j).isDueAt i = c.isDueAt i := by
  rw [isDueAt, Course.advance, List.getElem?_modify]
  simp [isDueAt, hi]

def Filled (c : Course) : Prop := ∀ (i : Nat) (f : FileReview), c.files[i]? = some f → ∀ b ∈ f.rest, b ≠ []

theorem filled_of (r : Reviewer) (files : List (SourceFile × String)) : (of r files).Filled := by
  intro i f hf b hb
  simp only [of, List.getElem?_map, Option.map_eq_some_iff] at hf
  rcases hf with ⟨a, ha, rfl⟩
  exact Reviewer.ne_nil_of_mem_batches hb

theorem Filled.reaches {ok : Course → Move → Prop} {ms : List Move} (hc : c.Filled)
    (h : Reaches ok c ms d) : d.Filled := by
  induction h with
  | start => exact hc
  | move h hok hs ih =>
    exact (step_iff.2 hs).files (P := fun _ f => ∀ b ∈ f.rest, b ≠ []) (fun _ _ _ _ _ hf => hf)
      (fun _ _ hd hf b hb => hf b (FileReview.rest_advance hd hb)) ih

theorem isDueAt_advance {f : FileReview} (hc : c.Filled) (hf : c.files[i]? = some f) (hd : f.isDue) :
    (c.advance i).isDueAt i = false := by
  rw [isDueAt, Course.advance, List.getElem?_modify]
  simp [hf, FileReview.isDue_advance hd (hc i f hf)]

end Course
end CodeAudit
