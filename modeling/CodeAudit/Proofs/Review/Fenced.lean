import CodeAudit.Proofs.Review.CutOff

/-!
A list of objects in a block of an answer. Without ticks in it the list is the block's body, and comes
back whatever prose stands around the block. Else the block ends at the first three ticks, whether or not
they belong to a text of the list; what is then left of the list is searched before the whole answer is.
-/
set_option autoImplicit false

namespace CodeAudit.Answer

variable {limit : Nat} {xs : List Fields} {before tag : List Char}

/-- Objects in a block come back as they are if they do not lie too deep inside each other, whatever
brackets the prose in front of the block holds and whatever stands behind it. -/
theorem issues_block_prose (hx : ∀ fs ∈ xs, (Json.object fs).Legible)
    (hn : ¬Fence.ticks <:+: written xs) (hb : ¬Fence.ticks <:+: before)
    (ht : ∀ c ∈ tag, Fence.isTagChar c) (after : List Char) :
    issues limit (before ++ '\n' :: (Fence.block tag (written xs) ++ after)) = .ok xs ↔
      (Json.array (xs.map .object)).nesting ≤ limit := by
  refine ⟨nesting_of_issues, fun hl => issues_of_bodies hx hl (r := Fence.bodies after) ?_⟩
  rw [Fence.bodies_prose hb, bodies_block_written ht hn]

theorem issues_block_prose_arrays :
    issues Script.nesting ("See [1, 2] or []:".toList ++ '\n' :: (Fence.block "json".toList
      (written [[("a", .text "["), ("b", .float .zero)]]) ++ "\n```\n[]\n```".toList)) =
      .ok [[("a", .text "["), ("b", .float .zero)]] :=
  (issues_block_prose (by
      have hz : Binary64.zero.Valid := by decide +kernel
      simp [Json.Legible, Json.LegibleFields, Json.text, hz])
    (by decide) (by decide) (List.all_eq_true.1 rfl) _).2 (by decide)

theorem bodies_block (hx : ∀ fs ∈ xs, (Json.object fs).Exact) (ht : ∀ c ∈ tag, Fence.isTagChar c)
    {b r : List Char} (h : Fence.untilTicks? (written xs ++ '\n' :: Fence.ticks) = some (b, r)) :
    Fence.bodies (Fence.block tag (written xs)) = Fence.dropBreak b :: Fence.bodies r := by
  obtain ⟨w, hw, -⟩ := written_eq hx
  have ho := Fence.opens_block ht (show Text.isBlank '[' = false by decide) w []
  rw [List.append_nil, List.append_nil] at ho
  rw [hw] at h ⊢
  exact Fence.bodies_of_block (Fence.blockAt?_eq_some_iff.2 ⟨_, b, ho, h, rfl⟩)

theorem issues_block_of_not_ticks (hx : ∀ fs ∈ xs, (Json.object fs).Exact)
    (hl : (Json.array (xs.map .object)).nesting ≤ limit) (ht : ∀ c ∈ tag, Fence.isTagChar c)
    (hn : ¬Fence.ticks <:+: written xs) : issues limit (Fence.block tag (written xs)) = .ok xs := by
  have hb := bodies_block_written ht hn []
  rw [List.append_nil] at hb
  exact issues_of_bodies (fun fs hf => (hx fs hf).legible) hl hb

theorem candidates_block (hx : ∀ fs ∈ xs, (Json.object fs).Exact)
    (ht : ∀ c ∈ tag, Fence.isTagChar c) {u w : List Char}
    (h : Fence.untilTicks? (written xs) = some (u, w)) :
    candidates (Fence.block tag (written xs)) = [u, Fence.block tag (written xs)] := by
  obtain ⟨hw, -⟩ := Fence.untilTicks?_eq_some_iff.1 h
  have hd : Fence.dropBreak u = u := by
    refine if_neg fun hl => written_oneLine hx ?_
    rw [hw]
    simp [List.mem_of_getLast? hl]
  have hr : Fence.bodies (w ++ '\n' :: Fence.ticks) = [] := by
    rw [bodies_written hx ⟨u ++ Fence.ticks, hw.symm⟩]
    rfl
  rw [candidates, bodies_block hx ht (Fence.untilTicks?_append h _), hd, hr]
  rfl

theorem search_block (hx : ∀ fs ∈ xs, (Json.object fs).Exact)
    (hl : (Json.array (xs.map .object)).nesting ≤ limit) (ht : ∀ c ∈ tag, Fence.isTagChar c) :
    search limit (Fence.block tag (written xs)) = .ok (some xs) := by
  have hb : '[' ∉ Fence.ticks ++ tag ++ ['\n'] := by
    have hn : '[' ∉ tag := fun hm => absurd (ht '[' hm) (by decide)
    simp [Fence.ticks, hn]
  have hs := search_written hx hl hb ('\n' :: Fence.ticks)
  simpa [Fence.block] using hs

/-- What is left of a list before ticks inside of it never gives the whole list. -/
theorem not_listAt_of_ticks (hx : ∀ fs ∈ xs, (Json.object fs).Exact)
    (hm : (Json.array (xs.map .object)).nesting ≤ limit) {u w : List Char}
    (h : written xs = u ++ Fence.ticks ++ w) (k : Nat) : ¬ListAt limit u k xs := by
  intro hl
  have hc : written xs = u ++ (Fence.ticks ++ w) := by rw [h, List.append_assoc]
  have hk := pos_of_cut hx hm hc (by simp [Fence.ticks]) (.inr ⟨xs, hl⟩)
  obtain ⟨fs, hf, l, hl, -, he⟩ | ⟨-, hn⟩ := listAt_cut hx hm hc hk hl
  · have ho : Json.object fs ∈ l := by
      rw [he] at hf
      obtain ⟨v, hv, hv'⟩ := List.mem_filterMap.1 hf
      cases v <;> cases hv'
      exact hv
    have h₁ := List.sizeOf_lt_of_mem ho
    have h₂ := hl.sizeOf_lt
    omega
  · obtain ⟨v, hv, hi⟩ := written_eq hx
    have hb : '`' ∈ written xs := by simp [h, Fence.ticks]
    obtain ⟨t, ⟨fs, hf, ht⟩, hb⟩ := hi.tick (by simpa [hv] using hb)
    exact hn fs hf t ht hb

/-- The objects of a block come back exactly if they do not lie too deep inside each other and no list
that counts, and no excess, is met in front of the first ticks inside of the block. -/
theorem issues_block_iff (hx : ∀ fs ∈ xs, (Json.object fs).Exact)
    (ht : ∀ c ∈ tag, Fence.isTagChar c) :
    issues limit (Fence.block tag (written xs)) = .ok xs ↔
      (Json.array (xs.map .object)).nesting ≤ limit ∧
      ∀ u w, written xs = u ++ Fence.ticks ++ w → ¬Fence.ticks <:+: u ++ ['`', '`'] → Barren limit u := by
  by_cases hm : (Json.array (xs.map .object)).nesting ≤ limit
  swap
  · exact iff_of_false (fun h => hm (nesting_of_issues h)) fun h => hm h.1
  rw [and_iff_right hm]
  cases hu : Fence.untilTicks? (written xs) with
  | none =>
    have hn := Fence.untilTicks?_eq_none_iff.1 hu
    refine iff_of_true (issues_block_of_not_ticks hx hm ht hn) fun u w h => ?_
    exact absurd ⟨u, w, h.symm⟩ hn
  | some x =>
    obtain ⟨u, w⟩ := x
    have hc := candidates_block hx ht hu
    have hall : (∀ u' w', written xs = u' ++ Fence.ticks ++ w' →
        ¬Fence.ticks <:+: u' ++ ['`', '`'] → Barren limit u') ↔ Barren limit u := by
      constructor
      · obtain ⟨h, hn⟩ := Fence.untilTicks?_eq_some_iff.1 hu
        exact fun hb => hb u w h hn
      · intro hb u' w' h hn
        rw [Fence.untilTicks?_eq_some_iff.2 ⟨h, hn⟩] at hu
        cases hu
        exact hb
    rw [hall, ← search_eq_none_iff, issues, ← candidates, hc, searchAll]
    cases hs : search limit u with
    | error e => simp
    | ok o =>
      cases o with
      | none => simp [searchAll, search_block hx hm ht]
      | some items =>
        obtain ⟨k, hk⟩ := search_eq_some hs
        have hn : items ≠ xs := by
          rintro rfl
          exact not_listAt_of_ticks hx hm (Fence.untilTicks?_eq_some_iff.1 hu).1 k hk
        simp [hn]

theorem issues_block_ticks :
    issues Script.nesting (Fence.block [] (written [[("a", .text "```")]])) = .ok [[("a", .text "```")]] := by
  refine (issues_block_iff (by simp [Json.Exact, Json.ExactFields, Json.text]) (by simp)).2
    ⟨by decide, fun u w h hn => ?_⟩
  have hu := Fence.untilTicks?_eq_some_iff.2 ⟨h, hn⟩
  have hf : Fence.untilTicks? (written [[("a", .text "```")]]) =
    some (['[', '\x7b', '"', 'a', '"', ':', ' ', '"'], ['"', '\x7d', ']']) := rfl
  rw [hf] at hu
  cases hu
  exact search_eq_none_iff.1 rfl

/-- An empty list in front of ticks is taken for the answer. -/
theorem issues_block_empty_list :
    ¬∀ (xs : List Fields) (tag : List Char), (∀ fs ∈ xs, (Json.object fs).Exact) →
      (∀ c ∈ tag, Fence.isTagChar c) → issues Script.nesting (Fence.block tag (written xs)) = .ok xs := by
  intro h
  have hi := h [[("x", .array []), ("a", .text "```")]] ['j', 's', 'o', 'n']
    (by simp [Json.Exact, Json.ExactFields, Json.ExactItems, Json.text])
    (List.all_eq_true.1 rfl)
  have ho : issues Script.nesting (Fence.block ['j', 's', 'o', 'n']
    (written [[("x", .array []), ("a", .text "```")]])) = .ok [] := rfl
  rw [ho] at hi
  cases hi

end CodeAudit.Answer
