import CodeAudit.Proofs.Json.Nesting
import CodeAudit.Proofs.Review.Fence
import CodeAudit.Review.Answer

/-!
The issues in an answer. They are found exactly when some bracket of the whole answer begins a list
that counts, and they are the objects of such a list: blocks decide which list is taken, never
whether there is one.
-/
set_option autoImplicit false

namespace CodeAudit.Answer

variable {limit : Nat}

/-- At bracket `p` of the text a list begins that is empty or has an object in it, and these are its
objects. -/
def ListAt (limit : Nat) (s : List Char) (p : Nat) (objects : List Fields) : Prop :=
  s[p]? = some '[' ∧ ∃ xs r, Json.readAt limit (s.drop p) = .ok (.array xs, r) ∧
    (xs = [] ∨ ∃ fs, .object fs ∈ xs) ∧ objects = xs.filterMap Json.fields?

def ExcessAt (limit : Nat) (s : List Char) (p : Nat) (e : Json.Excess) : Prop :=
  s[p]? = some '[' ∧ Json.readAt limit (s.drop p) = .error (.excess e)

theorem objects?_eq_some_iff {v : Json} {objects : List Fields} :
    objects? v = some objects ↔ ∃ xs, v = .array xs ∧ (xs = [] ∨ ∃ fs, .object fs ∈ xs) ∧
      objects = xs.filterMap Json.fields? := by
  have hm (xs : List Json) : xs.filterMap Json.fields? ≠ [] ↔ ∃ fs, .object fs ∈ xs := by
    rw [ne_eq, List.filterMap_eq_nil_iff]
    push Not
    constructor
    · rintro ⟨v, hv, hf⟩
      cases v with
      | object fs => exact ⟨fs, hv⟩
      | _ => exact absurd rfl hf
    · rintro ⟨fs, hf⟩
      exact ⟨_, hf, by simp [Json.fields?]⟩
  cases v with
  | array xs =>
    simp only [objects?, Bool.or_eq_true, Bool.not_eq_true', List.isEmpty_iff, Json.array.injEq,
      exists_eq_left', ← hm]
    grind
  | _ => simp [objects?]

theorem listAt_eq_some_iff {s : List Char} {objects : List Fields} :
    listAt limit s = .ok (some objects) ↔ ∃ xs r, Json.readAt limit s = .ok (.array xs, r) ∧
      (xs = [] ∨ ∃ fs, .object fs ∈ xs) ∧ objects = xs.filterMap Json.fields? := by
  unfold listAt
  cases h : Json.readAt limit s with
  | error e => cases e <;> simp
  | ok x =>
    obtain ⟨v, r⟩ := x
    simp only [Except.ok.injEq, objects?_eq_some_iff, Prod.mk.injEq]
    constructor
    · rintro ⟨xs, rfl, hx⟩
      exact ⟨xs, r, ⟨rfl, rfl⟩, hx⟩
    · rintro ⟨xs, _, ⟨rfl, rfl⟩, hx⟩
      exact ⟨xs, rfl, hx⟩

theorem listAt_eq_error_iff {s : List Char} {e : Json.Excess} :
    listAt limit s = .error e ↔ Json.readAt limit s = .error (.excess e) := by
  unfold listAt
  cases h : Json.readAt limit s with
  | error e' => cases e' <;> simp
  | ok x => simp

theorem listAt_eq_none_iff {s : List Char} {p : Nat} (hp : s[p]? = some '[') :
    listAt limit (s.drop p) = .ok none ↔
      (∀ e, ¬ExcessAt limit s p e) ∧ ∀ objects, ¬ListAt limit s p objects := by
  have hl (e) : ExcessAt limit s p e ↔ listAt limit (s.drop p) = .error e := by
    simp [ExcessAt, hp, listAt_eq_error_iff]
  have ho (objects) : ListAt limit s p objects ↔ listAt limit (s.drop p) = .ok (some objects) := by
    simp [ListAt, hp, listAt_eq_some_iff]
  simp only [hl, ho]
  cases listAt limit (s.drop p) with
  | error e => simp
  | ok o => cases o <;> simp

theorem search_eq_some {s : List Char} {objects : List Fields}
    (h : search limit s = .ok (some objects)) : ∃ p, ListAt limit s p objects := by
  induction s with
  | nil => cases h
  | cons c r ih =>
    have hr (h : search limit r = .ok (some objects)) : ∃ p, ListAt limit (c :: r) p objects := by
      obtain ⟨p, hp⟩ := ih h
      exact ⟨p + 1, by simpa [ListAt] using hp⟩
    rw [search] at h
    split at h
    · rename_i hc
      split at h
      · exact hr h
      · exact ⟨0, by simpa [ListAt, hc] using listAt_eq_some_iff.1 h⟩
    · exact hr h

theorem search_eq_error {s : List Char} {e : Json.Excess} (h : search limit s = .error e) :
    ∃ p, ExcessAt limit s p e := by
  induction s with
  | nil => cases h
  | cons c r ih =>
    have hr (h : search limit r = .error e) : ∃ p, ExcessAt limit (c :: r) p e := by
      obtain ⟨p, hp⟩ := ih h
      exact ⟨p + 1, by simpa [ExcessAt] using hp⟩
    rw [search] at h
    split at h
    · rename_i hc
      split at h
      · exact hr h
      · exact ⟨0, by simpa [ExcessAt, hc] using listAt_eq_error_iff.1 h⟩
    · exact hr h

def Barren (limit : Nat) (s : List Char) : Prop :=
  ∀ p, (∀ e, ¬ExcessAt limit s p e) ∧ ∀ objects, ¬ListAt limit s p objects

theorem barren_iff {s : List Char} :
    Barren limit s ↔ ∀ p, s[p]? = some '[' → listAt limit (s.drop p) = .ok none := by
  constructor
  · intro h p hp
    exact (listAt_eq_none_iff hp).2 (h p)
  · intro h p
    by_cases hp : s[p]? = some '['
    · exact (listAt_eq_none_iff hp).1 (h p hp)
    · exact ⟨fun _ hl => hp hl.1, fun _ hl => hp hl.1⟩

theorem search_eq_none_iff {s : List Char} : search limit s = .ok none ↔ Barren limit s := by
  rw [barren_iff]
  induction s with
  | nil => simp [search]
  | cons c r ih =>
    have hr : (∀ p, (c :: r)[p]? = some '[' → listAt limit ((c :: r).drop p) = .ok none) ↔
        (c = '[' → listAt limit (c :: r) = .ok none) ∧
          ∀ p, r[p]? = some '[' → listAt limit (r.drop p) = .ok none := by
      constructor
      · exact fun h => ⟨fun hc => h 0 (by simp [hc]), fun p hp => h (p + 1) (by simpa using hp)⟩
      · rintro ⟨h₀, h⟩ (- | p) hp
        · exact h₀ (by simpa using hp)
        · exact h p (by simpa using hp)
    rw [hr, ← ih, search]
    split
    · rename_i hc
      split <;> simp_all
    · rename_i hc
      simp [hc]

theorem searchAll_eq_none_iff {ss : List (List Char)} :
    searchAll limit ss = .ok none ↔ ∀ s ∈ ss, Barren limit s := by
  induction ss with
  | nil => simp [searchAll]
  | cons s ss ih =>
    rw [List.forall_mem_cons, ← ih, ← search_eq_none_iff, searchAll]
    split <;> simp_all

theorem searchAll_eq_some {ss : List (List Char)} {objects : List Fields}
    (h : searchAll limit ss = .ok (some objects)) : ∃ s ∈ ss, ∃ p, ListAt limit s p objects := by
  induction ss with
  | nil => cases h
  | cons s ss ih =>
    rw [searchAll] at h
    split at h
    · obtain ⟨t, ht, hp⟩ := ih h
      exact ⟨t, by simp [ht], hp⟩
    · exact ⟨s, by simp, search_eq_some h⟩

theorem searchAll_eq_error {ss : List (List Char)} {e : Json.Excess}
    (h : searchAll limit ss = .error e) : ∃ s ∈ ss, ∃ p, ExcessAt limit s p e := by
  induction ss with
  | nil => cases h
  | cons s ss ih =>
    rw [searchAll] at h
    split at h
    · obtain ⟨t, ht, hp⟩ := ih h
      exact ⟨t, by simp [ht], hp⟩
    · exact ⟨s, by simp, search_eq_error h⟩

/-- What is read at a bracket inside a piece of the text begins at a bracket of the text too. -/
theorem bracket_within {b s : List Char} {p : Nat} (hp : b[p]? = some '[') (hb : b <:+: s) :
    ∃ q c, s[q]? = some '[' ∧ s.drop q = b.drop p ++ c := by
  obtain ⟨a, c, rfl⟩ := hb
  have hl : p < b.length := (List.getElem?_eq_some_iff.1 hp).1
  refine ⟨a.length + p, c, ?_, ?_⟩
  · rw [List.append_assoc, List.getElem?_append_right (by omega), Nat.add_sub_cancel_left,
      List.getElem?_append_left hl, hp]
  · rw [List.append_assoc, ← List.drop_drop, List.drop_left, List.drop_append_of_le_length hl.le]

theorem ListAt.within {b s : List Char} {p : Nat} {objects : List Fields}
    (h : ListAt limit b p objects) (hb : b <:+: s) : ∃ q, ListAt limit s q objects := by
  obtain ⟨hp, xs, r, hx, hc⟩ := h
  obtain ⟨q, c, hq, hd⟩ := bracket_within hp hb
  exact ⟨q, hq, xs, r ++ c, hd ▸ Json.readAt_append hx (by rw [List.head?_drop, hp]) c, hc⟩

theorem ExcessAt.within {b s : List Char} {p : Nat} (h : ExcessAt limit b p .nesting) (hb : b <:+: s) :
    ∃ q, ExcessAt limit s q .nesting := by
  obtain ⟨q, c, hq, hd⟩ := bracket_within h.1 hb
  exact ⟨q, hq, hd ▸ Json.readAt_append_nesting h.2 c⟩

theorem ListAt.nesting {s : List Char} {p : Nat} {objects : List Fields} (h : ListAt limit s p objects) :
    (Json.array (objects.map .object)).nesting ≤ limit := by
  obtain ⟨-, xs, r, hx, -, rfl⟩ := h
  refine le_trans ?_ (Json.readAt_nesting hx)
  simp only [Json.nesting, Nat.add_le_add_iff_right, Json.nestingItems_le_iff]
  intro v hv
  obtain ⟨fs, hf, rfl⟩ := List.mem_map.1 hv
  obtain ⟨w, hw, he⟩ := List.mem_filterMap.1 hf
  cases w <;> cases he
  exact Json.nestingItems_le_iff.1 le_rfl _ hw

theorem ExcessAt.run {s : List Char} {p : Nat} (h : ExcessAt limit s p .digits) :
    Json.Reader.LongRun s :=
  (Json.readAt_long h.2).mono (List.drop_suffix p s).isInfix

/-- The places where a list is looked for: the blocks and the whole answer. -/
def candidates (s : List Char) : List (List Char) := Fence.bodies s ++ [s]

theorem candidates_within {s t : List Char} (h : t ∈ candidates s) : t <:+: s := by
  obtain h | h := List.mem_append.1 h
  · exact Fence.bodies_within h
  · rw [List.mem_singleton.1 h]

theorem issues_cases (limit : Nat) (s : List Char) :
    (∃ objects, issues limit s = .ok objects ∧ searchAll limit (candidates s) = .ok (some objects)) ∨
    (∃ e, issues limit s = .error e.failure ∧ searchAll limit (candidates s) = .error e) ∨
    (issues limit s = .error (if s.contains '[' then noGoodList else noList) ∧
      ∀ t ∈ candidates s, Barren limit t) := by
  cases hs : searchAll limit (candidates s) with
  | error e => exact .inr (.inl ⟨e, by rw [issues, ← candidates, hs], rfl⟩)
  | ok o =>
    cases o with
    | none => exact .inr (.inr ⟨by rw [issues, ← candidates, hs], searchAll_eq_none_iff.1 hs⟩)
    | some objects => exact .inl ⟨objects, by rw [issues, ← candidates, hs], rfl⟩

theorem failure_ne (e : Json.Excess) : e.failure ≠ noGoodList ∧ e.failure ≠ noList := by
  cases e <;> decide

theorem failure_injective : Function.Injective Json.Excess.failure := by
  intro e e' h
  cases e <;> cases e' <;> first | rfl | cases h

theorem issues_eq_ok {s : List Char} {objects : List Fields} (h : issues limit s = .ok objects) :
    ∃ t ∈ candidates s, ∃ p, ListAt limit t p objects := by
  obtain ⟨objects', he, hs⟩ | ⟨e, he, -⟩ | ⟨he, -⟩ := issues_cases limit s <;> rw [h] at he <;> cases he
  exact searchAll_eq_some hs

theorem issues_eq_noGoodList_iff {s : List Char} :
    issues limit s = .error noGoodList ↔ '[' ∈ s ∧ ∀ t ∈ candidates s, Barren limit t := by
  obtain ⟨objects, he, hs⟩ | ⟨e, he, hs⟩ | ⟨he, hb⟩ := issues_cases limit s
  · obtain ⟨t, ht, p, hl⟩ := searchAll_eq_some hs
    simpa [he] using fun _ => ⟨t, ht, fun hb => (hb p).2 objects hl⟩
  · obtain ⟨t, ht, p, hl⟩ := searchAll_eq_error hs
    simpa [he, (failure_ne e).1] using fun _ => ⟨t, ht, fun hb => (hb p).1 e hl⟩
  · by_cases hm : '[' ∈ s
    · simpa [he, hm] using hb
    · simp [he, hm, noGoodList, noList]

theorem issues_eq_noList_iff {s : List Char} : issues limit s = .error noList ↔ '[' ∉ s := by
  have hc {t : List Char} {p : Nat} (ht : t ∈ candidates s) (h : t[p]? = some '[') : '[' ∈ s :=
    (candidates_within ht).subset (List.mem_of_getElem? h)
  obtain ⟨objects, he, hs⟩ | ⟨e, he, hs⟩ | ⟨he, hb⟩ := issues_cases limit s
  · obtain ⟨t, ht, p, hl⟩ := searchAll_eq_some hs
    simp [he, hc ht hl.1]
  · obtain ⟨t, ht, p, hl⟩ := searchAll_eq_error hs
    simp [he, hc ht hl.1, (failure_ne e).2]
  · by_cases hm : '[' ∈ s <;> simp [he, hm, noGoodList, noList]

/-- What is returned is a list of the answer, whichever block it was found in. -/
theorem issues_sound {s : List Char} {objects : List Fields} (h : issues limit s = .ok objects) :
    ∃ p, ListAt limit s p objects := by
  obtain ⟨t, ht, p, hp⟩ := issues_eq_ok h
  exact hp.within (candidates_within ht)

end CodeAudit.Answer
