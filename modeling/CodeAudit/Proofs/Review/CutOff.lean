import CodeAudit.Proofs.Json.Cut
import CodeAudit.Proofs.Json.Inverted
import CodeAudit.Proofs.Review.RoundTrip

/-!
Answers that break off. The list itself is lost with its closing bracket, but every later bracket is
tried too, and a list inside an object may be complete already.
-/
set_option autoImplicit false

namespace CodeAudit.Answer

variable {limit : Nat} {xs : List Fields} {p q : List Char}

theorem readAt_cut (hx : ∀ fs ∈ xs, (Json.object fs).Exact)
    (hm : (Json.array (xs.map .object)).nesting ≤ limit) (h : written xs = p ++ q) (hq : q ≠ []) :
    Json.readAt limit p = .error .malformed := Json.readAt_cut (exact_written hx) hm h hq

theorem pos_of_cut (hx : ∀ fs ∈ xs, (Json.object fs).Exact)
    (hm : (Json.array (xs.map .object)).nesting ≤ limit) (h : written xs = p ++ q) (hq : q ≠ []) {k : Nat}
    (hk : (∃ e, ExcessAt limit p k e) ∨ ∃ items, ListAt limit p k items) : 0 < k := by
  have hr := readAt_cut hx hm h hq
  refine Nat.pos_of_ne_zero ?_
  rintro rfl
  obtain ⟨_, -, hl⟩ | ⟨_, -, _, _, hl, -⟩ := hk <;> simp [hr] at hl

theorem bracket_of_cut (hx : ∀ fs ∈ xs, (Json.object fs).Exact) (h : written xs = p ++ q) {k : Nat}
    (hk : 0 < k) (hp : p[k]? = some '[') :
    (∃ fs ∈ xs, ∃ l r, Json.ListOf l (.object fs) ∧
      p.drop k ++ q = Json.render .plain (.array l) ++ r) ∨
    Json.Place.Guarded .text (p.drop k) ∧
      ∃ fs ∈ xs, ∃ t, Json.TextOf t (.object fs) ∧ .char '[' ∈ t.letters := by
  obtain ⟨w, hw, hi⟩ := written_eq hx
  obtain ⟨k, rfl⟩ : ∃ n, k = n + 1 := ⟨k - 1, by omega⟩
  cases p with
  | nil => simp at hp
  | cons c p =>
    rw [List.getElem?_cons_succ] at hp
    obtain ⟨hlt, hc⟩ := List.getElem?_eq_some_iff.1 hp
    have hd : p.drop k = '[' :: p.drop (k + 1) := by rw [List.drop_eq_getElem_cons hlt, hc]
    have hs : w = p.take k ++ '[' :: (p.drop (k + 1) ++ q) := by
      rw [← List.cons_append, ← hd, ← List.append_assoc, List.take_append_drop]
      exact (List.cons.inj (hw.symm.trans h)).2
    rw [List.drop_succ_cons, hd]
    obtain ⟨l, r, ⟨fs, hf, hl⟩, hr⟩ | ⟨ho, t, ⟨fs, hf, ht⟩, hb⟩ := hi.bracket _ _ hs
    · exact .inl ⟨fs, hf, l, r, hl, hr⟩
    · refine .inr ⟨?_, fs, hf, t, ht, hb⟩
      have hg := hi.guarded
      rw [hs, Json.Place.guarded_append, ← List.cons_append, Json.Place.guarded_append] at hg
      cases hr : Json.Place.run .out (p.take k) with
      | out => exact absurd hr ho
      | text => exact hr ▸ hg.2.1
      | escape =>
        rw [hr] at hg
        exact absurd rfl hg.2.1.1

/-- A list that is written somewhere is read there or broken off, never refused for an excess. -/
theorem not_excess_of_written {l : List Json} (hl : (Json.array l).Exact)
    (hm : (Json.array l).nesting ≤ limit) {s q r : List Char} {e : Json.Excess}
    (hs : s ++ q = Json.render .plain (.array l) ++ r) : Json.readAt limit s ≠ .error (.excess e) := by
  obtain ⟨a, rfl, -⟩ | ⟨b, hb, hn⟩ := Json.append_split hs.symm
  · have hr := Json.readAt_render Json.Layout.plain_blank hl.legible hm .nil
    rw [List.append_nil] at hr
    simp [Json.readAt_append hr (by rw [Json.render_array, List.head?_cons]) a]
  · simp [Json.readAt_cut hl hm hb hn]

theorem eq_of_written {l ys : List Json} (hl : (Json.array l).Exact)
    (hm : (Json.array l).nesting ≤ limit) {s q r r' : List Char}
    (hs : s ++ q = Json.render .plain (.array l) ++ r) (hr : Json.readAt limit s = .ok (.array ys, r'))
    (hb : s.head? = some '[') : ys = l := by
  have h₁ := Json.readAt_append hr hb q
  have h₂ := Json.readAt_render Json.Layout.plain_blank hl.legible hm .nil
  rw [List.append_nil] at h₂
  have h₃ := Json.readAt_append h₂ (by rw [Json.render_array, List.head?_cons]) r
  rw [hs, h₃] at h₁
  cases h₁
  rfl

theorem nesting_listOf {l : List Json} {fs : Fields} (hm : (Json.array (xs.map .object)).nesting ≤ limit)
    (hf : fs ∈ xs) (hl : Json.ListOf l (.object fs)) : (Json.array l).nesting ≤ limit := by
  simp only [Json.nesting] at hm
  have hi := Json.nestingItems_le_iff.1 (Nat.le_of_succ_le hm) _ (List.mem_map_of_mem hf)
  exact hl.nesting_le.trans hi

/-- A list found behind the first bracket is one that the objects hold, or begins in one of their texts
and then has no ticks in its own. -/
theorem listAt_cut (hx : ∀ fs ∈ xs, (Json.object fs).Exact)
    (hm : (Json.array (xs.map .object)).nesting ≤ limit) (h : written xs = p ++ q) {k : Nat}
    {items : List Fields} (hk : 0 < k) (hl : ListAt limit p k items) :
    (∃ fs ∈ xs, ∃ l, Json.ListOf l (.object fs) ∧ (l = [] ∨ ∃ fs', .object fs' ∈ l) ∧
      items = l.filterMap Json.fields?) ∨
    (∃ fs ∈ xs, ∃ t, Json.TextOf t (.object fs) ∧ .char '[' ∈ t.letters) ∧
      ∀ fs ∈ items, (Json.object fs).Tickless := by
  obtain ⟨hp, ys, r, hr, hy, rfl⟩ := hl
  obtain ⟨fs, hf, l, r', hl, hs⟩ | ⟨hg, ht⟩ := bracket_of_cut hx h hk hp
  · obtain rfl := eq_of_written (hl.exact (hx fs hf)) (nesting_listOf hm hf hl) hs hr
      (by rw [List.head?_drop, hp])
    exact .inl ⟨fs, hf, ys, hl, hy, rfl⟩
  · refine .inr ⟨ht, fun fs hf t ht => ?_⟩
    have hys := ((Json.read_tickless _).1 hr hg).1
    obtain ⟨v, hv, he⟩ := List.mem_filterMap.1 hf
    cases v <;> cases he
    exact hys t (.item hv ht)

theorem excessAt_cut (hx : ∀ fs ∈ xs, (Json.object fs).Exact)
    (hm : (Json.array (xs.map .object)).nesting ≤ limit) (h : written xs = p ++ q) {k : Nat}
    (hk : 0 < k) {e : Json.Excess} (hl : ExcessAt limit p k e) :
    ∃ fs ∈ xs, ∃ t, Json.TextOf t (.object fs) ∧ .char '[' ∈ t.letters := by
  obtain ⟨fs, hf, l, r, hl', hs⟩ | ⟨-, ht⟩ := bracket_of_cut hx h hk hl.1
  · exact absurd hl.2 (not_excess_of_written (hl'.exact (hx fs hf)) (nesting_listOf hm hf hl') hs)
  · exact ht

/-- Nothing in the objects could be taken for a list of issues: no text has a bracket, and every list
holds something, but no object. -/
def Plain (xs : List Fields) : Prop :=
  ∀ fs ∈ xs, (∀ t, Json.TextOf t (.object fs) → .char '[' ∉ t.letters) ∧
    ∀ l, Json.ListOf l (.object fs) → l ≠ [] ∧ ∀ fs', .object fs' ∉ l

theorem Plain.barren (hp : Plain xs) (hx : ∀ fs ∈ xs, (Json.object fs).Exact)
    (hm : (Json.array (xs.map .object)).nesting ≤ limit) (h : written xs = p ++ q) (hq : q ≠ []) :
    Barren limit p := by
  have hno : ¬∃ fs ∈ xs, ∃ t, Json.TextOf t (.object fs) ∧ .char '[' ∈ t.letters :=
    fun ⟨fs, hf, t, ht, hb⟩ => (hp fs hf).1 t ht hb
  refine fun k => ⟨fun e hl => ?_, fun items hl => ?_⟩
  · exact hno (excessAt_cut hx hm h (pos_of_cut hx hm h hq (.inl ⟨e, hl⟩)) hl)
  · have hk := pos_of_cut hx hm h hq (.inr ⟨_, hl⟩)
    obtain ⟨fs, hf, l, hl', he, -⟩ | ⟨ht, -⟩ := listAt_cut hx hm h hk hl
    · obtain ⟨hn, ho⟩ := (hp fs hf).2 l hl'
      obtain he | ⟨fs', he⟩ := he
      · exact hn he
      · exact ho fs' he
    · exact hno ht

/-- An answer cut off inside its list never passes for the list. What can still be returned is a list
that begins at a later bracket, held by an object or by one of its texts; otherwise the answer is
refused as malformed, and always so if nothing in the objects could be taken for such a list. -/
theorem issues_cut (hx : ∀ fs ∈ xs, (Json.object fs).Exact)
    (hm : (Json.array (xs.map .object)).nesting ≤ limit) (h : written xs = p ++ q) (hp : p ≠ [])
    (hq : q ≠ []) :
    issues limit p ≠ .error noList ∧
    (∀ items, issues limit p = .ok items → (∃ k > 0, ListAt limit p k items) ∧
      ((∃ fs ∈ xs, ∃ l, Json.ListOf l (.object fs) ∧ items = l.filterMap Json.fields?) ∨
        ∃ fs ∈ xs, ∃ t, Json.TextOf t (.object fs) ∧ .char '[' ∈ t.letters)) ∧
    ((∀ k > 0, ∀ e, ¬ExcessAt limit p k e) →
      (issues limit p = .error noGoodList ↔ ∀ k > 0, ∀ items, ¬ListAt limit p k items)) ∧
    (Plain xs → issues limit p = .error noGoodList) := by
  have hone : candidates p = [p] := by
    rw [candidates, Fence.bodies_of_oneLine fun hn => written_oneLine hx (by simp [h, hn])]
    rfl
  have hb : '[' ∈ p := by
    obtain ⟨w, hw, -⟩ := written_eq hx
    obtain ⟨c, p, rfl⟩ := List.exists_cons_of_ne_nil hp
    obtain ⟨rfl, -⟩ := List.cons.inj (hw.symm.trans h)
    simp
  have hbarren : issues limit p = .error noGoodList ↔ Barren limit p := by
    simp [issues_eq_noGoodList_iff, hone, hb]
  refine ⟨fun he => issues_eq_noList_iff.1 he hb, fun items ho => ?_, fun hl => ?_,
    fun hpl => hbarren.2 (hpl.barren hx hm h hq)⟩
  · obtain ⟨s, hs, k, hk⟩ := issues_eq_ok ho
    obtain rfl : s = p := by simpa [hone] using hs
    have hk₀ := pos_of_cut hx hm h hq (.inr ⟨items, hk⟩)
    refine ⟨⟨k, hk₀, hk⟩, ?_⟩
    obtain ⟨fs, hf, l, hl, -, he⟩ | ⟨ht, -⟩ := listAt_cut hx hm h hk₀ hk
    · exact .inl ⟨fs, hf, l, hl, he⟩
    · exact .inr ht
  · rw [hbarren]
    refine ⟨fun hb k _ => (hb k).2, fun hn k => ⟨fun e hk => ?_, fun items hk => ?_⟩⟩
    · exact hl k (pos_of_cut hx hm h hq (.inl ⟨e, hk⟩)) e hk
    · exact hn k (pos_of_cut hx hm h hq (.inr ⟨items, hk⟩)) items hk

/-- Cut off inside a list that an object holds, behind a list inside of that. -/
theorem issues_cut_nested : ∃ q, written [[("a", .array [.array [.null], .null])]] =
    "[\x7b\"a\": [[null], ".toList ++ q ∧ Plain [[("a", .array [.array [.null], .null])]] ∧
    issues Script.nesting "[\x7b\"a\": [[null], ".toList = .error noGoodList := by
  have hx : ∀ fs ∈ [[(LooseText.whole "a", Json.array [.array [.null], .null])]],
      (Json.object fs).Exact := by
    simp [Json.Exact, Json.ExactFields, Json.ExactItems]
  have hitem {v : Json} (hv : v ∈ [Json.array [.null], .null]) : v = .array [.null] ∨ v = .null := by
    simpa using hv
  have hp : Plain [[("a", .array [.array [.null], .null])]] := by
    intro fs hf
    obtain rfl := List.mem_singleton.1 hf
    constructor
    · intro t ht
      cases ht with
      | name hm =>
        cases List.mem_singleton.1 hm
        decide
      | value hm ht =>
        cases List.mem_singleton.1 hm
        cases ht with
        | item hv ht =>
          obtain rfl | rfl := hitem hv
          · cases ht with
            | item hn ht =>
              cases List.mem_singleton.1 hn
              cases ht
          · cases ht
    · intro l hl
      cases hl with
      | value hm hl =>
        cases List.mem_singleton.1 hm
        cases hl with
        | self => simp
        | item hv hl =>
          obtain rfl | rfl := hitem hv
          · cases hl with
            | self => simp
            | item hn hl =>
              cases List.mem_singleton.1 hn
              cases hl
          · cases hl
  have h : written [[("a", .array [.array [.null], .null])]] =
      "[\x7b\"a\": [[null], ".toList ++ "null]\x7d]".toList := rfl
  exact ⟨_, h, hp, (issues_cut hx (by decide) h (by simp) (by decide)).2.2.2 hp⟩

/-- An empty list in the first object is taken for the answer where the rest is missing. -/
theorem issues_cut_empty_list :
    ¬∀ (xs : List Fields) (p q : List Char), (∀ fs ∈ xs, (Json.object fs).Exact) → xs ≠ [] →
      written xs = p ++ q → p ≠ [] → q ≠ [] → issues Script.nesting p = .error noGoodList := by
  intro h
  have hi := h [[("a", .array [])]] ['[', '\x7b', '"', 'a', '"', ':', ' ', '[', ']'] ['\x7d', ']']
    (by simp [Json.Exact, Json.ExactFields, Json.ExactItems]) (by simp) rfl (by simp) (by simp)
  have ho : issues Script.nesting ['[', '\x7b', '"', 'a', '"', ':', ' ', '[', ']'] = .ok [] := rfl
  rw [ho] at hi
  cases hi

end CodeAudit.Answer
