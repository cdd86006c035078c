import CodeAudit.Proofs.Json.Nested
import CodeAudit.Proofs.Json.RoundTrip
import CodeAudit.Proofs.Review.Extraction
import CodeAudit.Review.Model

set_option autoImplicit false

namespace CodeAudit.Answer

def written (xs : List Fields) : List Char := Json.render .plain (.array (xs.map .object))

variable {limit : Nat} {xs : List Fields}

theorem exact_written (hx : ∀ fs ∈ xs, (Json.object fs).Exact) :
    (Json.array (xs.map .object)).Exact := by
  refine Json.exactItems_iff.2 fun v hv => ?_
  obtain ⟨fs, hf, rfl⟩ := List.mem_map.1 hv
  exact hx fs hf

theorem written_eq (hx : ∀ fs ∈ xs, (Json.object fs).Exact) :
    ∃ w, written xs = '[' :: w ∧ Json.Written (fun l => ∃ fs ∈ xs, Json.ListOf l (.object fs))
      (fun t => ∃ fs ∈ xs, Json.TextOf t (.object fs)) w := by
  refine ⟨_, Json.render_array _, ?_⟩
  have hw := Json.written_inside fun v hv =>
    Json.written_render (Json.exactItems_iff.1 (exact_written hx) v hv)
  refine hw.mono ?_ ?_
  · rintro l ⟨v, hv, hl⟩
    obtain ⟨fs, hf, rfl⟩ := List.mem_map.1 hv
    exact ⟨fs, hf, hl⟩
  · rintro t ⟨v, hv, ht⟩
    obtain ⟨fs, hf, rfl⟩ := List.mem_map.1 hv
    exact ⟨fs, hf, ht⟩

theorem written_oneLine (hx : ∀ fs ∈ xs, (Json.object fs).Exact) : '\n' ∉ written xs := by
  obtain ⟨w, hw, hi⟩ := written_eq hx
  simp [hw, hi.oneLine]

theorem written_last (xs : List Fields) : ∃ w, written xs = w ++ [']'] := by
  rw [written, Json.render_array]
  cases xs with
  | nil => exact ⟨['['], rfl⟩
  | cons fs xs =>
    rw [List.map_cons, Json.plainInside, Json.plainItems_eq, ← List.append_assoc, ← List.cons_append]
    exact ⟨_, rfl⟩

theorem bodies_written (hx : ∀ fs ∈ xs, (Json.object fs).Exact) {r : List Char}
    (hr : r <:+ written xs) (k : List Char) : Fence.bodies (r ++ k) = Fence.bodies k := by
  obtain ⟨w, hw⟩ := written_last xs
  refine Fence.bodies_append fun t ht hn => ?_
  have hs := ht.trans hr
  obtain rfl | ⟨t, rfl, -⟩ := List.suffix_concat_iff.1 (hw ▸ hs)
  · exact absurd rfl hn
  have hl : '\n' ∉ t := fun h => written_oneLine hx (hs.subset (by simp [h]))
  rw [List.append_assoc, List.singleton_append]
  exact Fence.blockAt?_of_line hl (by decide) (by decide) (by decide)

theorem legible_written (hx : ∀ fs ∈ xs, (Json.object fs).Legible) :
    (Json.array (xs.map .object)).Legible := by
  refine Json.legibleItems_iff.2 fun v hv => ?_
  obtain ⟨fs, hf, rfl⟩ := List.mem_map.1 hv
  exact hx fs hf

theorem listAt_legible (hx : ∀ fs ∈ xs, (Json.object fs).Legible)
    (hl : (Json.array (xs.map .object)).nesting ≤ limit) (k : List Char) :
    listAt limit (written xs ++ k) = .ok (some xs) := by
  have hr := Json.readAt_render Json.Layout.plain_blank (legible_written hx) hl .nil
  rw [List.append_nil] at hr
  have ha := Json.readAt_append hr (by rw [Json.render_array, List.head?_cons]) k
  refine listAt_eq_some_iff.2 ⟨_, _, ha, ?_, ?_⟩
  · cases xs with
    | nil => exact .inl rfl
    | cons fs xs => exact .inr ⟨fs, by simp⟩
  · have hf : (fun fs => Json.fields? (.object fs)) = some := rfl
    simp [List.filterMap_map, hf]

theorem search_legible (hx : ∀ fs ∈ xs, (Json.object fs).Legible)
    (hl : (Json.array (xs.map .object)).nesting ≤ limit) {before : List Char}
    (hb : '[' ∉ before) (after : List Char) :
    search limit (before ++ (written xs ++ after)) = .ok (some xs) := by
  induction before with
  | nil =>
    obtain ⟨w, hw⟩ : ∃ w, written xs = '[' :: w := ⟨_, Json.render_array _⟩
    have ha := listAt_legible hx hl after
    rw [hw] at ha
    simp only [List.nil_append, hw, List.cons_append] at ha ⊢
    rw [search, if_pos rfl, ha]
  | cons c before ih =>
    obtain ⟨hc, hb⟩ := not_or.1 (List.mem_cons.not.1 hb)
    rw [List.cons_append, search, if_neg (Ne.symm hc)]
    exact ih hb

theorem bodies_block_written {tag : List Char} (ht : ∀ c ∈ tag, Fence.isTagChar c)
    (hn : ¬Fence.ticks <:+: written xs) (after : List Char) :
    Fence.bodies (Fence.block tag (written xs) ++ after) = written xs :: Fence.bodies after := by
  obtain ⟨w, hw⟩ : ∃ w, written xs = '[' :: w := ⟨_, Json.render_array _⟩
  rw [hw] at hn ⊢
  exact Fence.bodies_block_append ht (by decide) hn after

theorem issues_of_bodies (hx : ∀ fs ∈ xs, (Json.object fs).Legible)
    (hl : (Json.array (xs.map .object)).nesting ≤ limit) {s : List Char} {r : List (List Char)}
    (h : Fence.bodies s = written xs :: r) : issues limit s = .ok xs := by
  have hs := search_legible hx hl (List.not_mem_nil (a := '[')) []
  rw [List.append_nil, List.nil_append] at hs
  rw [issues, h]
  simp [searchAll, hs]

theorem search_written (hx : ∀ fs ∈ xs, (Json.object fs).Exact)
    (hl : (Json.array (xs.map .object)).nesting ≤ limit) {before : List Char}
    (hb : '[' ∉ before) (after : List Char) :
    search limit (before ++ (written xs ++ after)) = .ok (some xs) :=
  search_legible (fun fs hf => (hx fs hf).legible) hl hb after

theorem nesting_of_issues {s : List Char} (h : issues limit s = .ok xs) :
    (Json.array (xs.map .object)).nesting ≤ limit := by
  obtain ⟨p, hp⟩ := issues_sound h
  exact hp.nesting

/-- Objects written into an answer come back as they are if they do not lie too deep inside each other.
Nothing in front may hold a bracket, and neither in front nor behind may there be three ticks; what their
texts hold does not matter. -/
theorem issues_written {before after : List Char} (hx : ∀ fs ∈ xs, (Json.object fs).Exact)
    (hb : '[' ∉ before) (ht : ¬Fence.ticks <:+: before) (ha : ¬Fence.ticks <:+: after) :
    issues limit (before ++ written xs ++ after) = .ok xs ↔
      (Json.array (xs.map .object)).nesting ≤ limit := by
  refine ⟨nesting_of_issues, fun hl => ?_⟩
  have hbody : Fence.bodies (before ++ (written xs ++ after)) = [] := by
    obtain ⟨w, hw, -⟩ := written_eq hx
    rw [Fence.bodies_append fun t hs _ => Fence.blockAt?_of_not_ticks fun hp => ?_,
      bodies_written hx List.suffix_rfl, Fence.bodies_of_not_ticks ha]
    rw [hw, List.cons_append] at hp
    exact ht ((Fence.ticks_front_append hp (by decide)).isInfix.trans hs.isInfix)
  rw [List.append_assoc, issues, hbody]
  simp [searchAll, search_written hx hl hb after]

theorem issues_written_between :
    issues Script.nesting ("So: ".toList ++ written [[("a", .text "```[")]] ++ " [1]".toList) =
      .ok [[("a", .text "```[")]] :=
  (issues_written (by simp [Json.Exact, Json.ExactFields, Json.text]) (by decide) (by decide)
    (by decide)).2 (by decide)

end CodeAudit.Answer
