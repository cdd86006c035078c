import CodeAudit.Proofs.Json.Nesting
import CodeAudit.Proofs.Json.Quotes

/-!
What stands where in a value written on one line. A bracket of it opens a list of the value or belongs
to one of its texts, ticks belong to its texts, and there is no line feed.
-/
set_option autoImplicit false

namespace CodeAudit.Json

/-- A text of a value: one it holds, at any depth, or the name of a member. -/
inductive TextOf (t : LooseText) : Json → Prop where
  | self : TextOf t (.string t)
  | item {v : Json} {xs : List Json} (hv : v ∈ xs) (h : TextOf t v) : TextOf t (.array xs)
  | name {v : Json} {fs : Fields} (h : (t, v) ∈ fs) : TextOf t (.object fs)
  | value {n : LooseText} {v : Json} {fs : Fields} (hv : (n, v) ∈ fs) (h : TextOf t v) :
      TextOf t (.object fs)

inductive ListOf (l : List Json) : Json → Prop where
  | self : ListOf l (.array l)
  | item {v : Json} {xs : List Json} (hv : v ∈ xs) (h : ListOf l v) : ListOf l (.array xs)
  | value {n : LooseText} {v : Json} {fs : Fields} (hv : (n, v) ∈ fs) (h : ListOf l v) :
      ListOf l (.object fs)

theorem sizeOf_field {n : LooseText} {v : Json} {fs : Fields} (h : (n, v) ∈ fs) :
    sizeOf v < sizeOf fs := by
  have := List.sizeOf_lt_of_mem h
  simp only [Prod.mk.sizeOf_spec] at this
  omega

theorem ListOf.sizeOf_lt {l : List Json} {v : Json} (h : ListOf l v) : sizeOf l < sizeOf v := by
  induction h with
  | self =>
    simp only [array.sizeOf_spec]
    omega
  | item hv _ ih =>
    have := List.sizeOf_lt_of_mem hv
    simp only [array.sizeOf_spec]
    omega
  | value hv _ ih =>
    have := sizeOf_field hv
    simp only [object.sizeOf_spec]
    omega

theorem exactFields_iff {fs : Fields} : ExactFields fs ↔ ∀ f ∈ fs, f.1.Exact ∧ f.2.Exact := by
  induction fs with
  | nil => simp [ExactFields]
  | cons f fs ih => simp [ExactFields, ih, and_assoc]

theorem ListOf.exact {l : List Json} {v : Json} (h : ListOf l v) (hv : v.Exact) :
    (array l).Exact := by
  induction h with
  | self => exact hv
  | item hm _ ih => exact ih (exactItems_iff.1 hv _ hm)
  | value hm _ ih => exact ih (exactFields_iff.1 hv.2 _ hm).2

theorem ListOf.nesting_le {l : List Json} {v : Json} (h : ListOf l v) :
    (array l).nesting ≤ v.nesting := by
  induction h with
  | self => exact le_rfl
  | item hm _ ih =>
    have := nestingItems_le_iff.1 le_rfl _ hm
    simp only [nesting] at ih ⊢
    omega
  | value hm _ ih =>
    have := nestingFields_le_iff.1 le_rfl _ hm
    simp only [nesting] at ih this ⊢
    omega

theorem induct {P : Json → Prop} (null : P .null) (bool : ∀ b, P (.bool b)) (int : ∀ i, P (.int i))
    (float : ∀ x, P (.float x)) (string : ∀ t, P (.string t))
    (array : ∀ xs, (∀ x ∈ xs, P x) → P (.array xs))
    (object : ∀ fs : Fields, (∀ f ∈ fs, P f.2) → P (.object fs)) (v : Json) : P v :=
  @Json.rec P (fun xs => ∀ x ∈ xs, P x) (fun fs => ∀ f ∈ fs, P f.2) (fun f => P f.2) null bool int
    float string array object (by simp) (fun x xs hx hs => List.forall_mem_cons.2 ⟨hx, hs⟩) (by simp)
    (fun f fs hf hs => List.forall_mem_cons.2 ⟨hf, hs⟩) (fun _ _ hv => hv) v

open Place Reader

/-- A stretch written outside of literals at both ends, `L` its lists and `T` its texts. -/
structure Written (L : List Json → Prop) (T : LooseText → Prop) (w : List Char) : Prop where
  run_eq : run .out w = .out
  guarded : Guarded .out w
  oneLine : '\n' ∉ w
  tick : '`' ∈ w → ∃ t, T t ∧ .char '`' ∈ t.letters
  bracket : ∀ a b, w = a ++ '[' :: b → (∃ l r, L l ∧ '[' :: b = render .plain (.array l) ++ r) ∨
    run .out a ≠ .out ∧ ∃ t, T t ∧ .char '[' ∈ t.letters

def isFrame (c : Char) : Bool := c != '"' && c != '\\' && c != '[' && c != '`' && c != '\n'

namespace Written

variable {L L' : List Json → Prop} {T T' : LooseText → Prop} {v w : List Char}

theorem mono (h : Written L T w) (hL : ∀ l, L l → L' l) (hT : ∀ t, T t → T' t) :
    Written L' T' w := by
  refine ⟨h.run_eq, h.guarded, h.oneLine, fun hw => ?_, fun a b hw => ?_⟩
  · obtain ⟨t, ht, hl⟩ := h.tick hw
    exact ⟨t, hT t ht, hl⟩
  · obtain ⟨l, r, hl, hr⟩ | ⟨ho, t, ht, hl⟩ := h.bracket a b hw
    · exact .inl ⟨l, r, hL l hl, hr⟩
    · exact .inr ⟨ho, t, hT t ht, hl⟩

theorem append (hv : Written L T v) (hw : Written L T w) : Written L T (v ++ w) := by
  refine ⟨?_, guarded_append.2 ⟨hv.guarded, ?_⟩, ?_, fun h => ?_, fun a b h => ?_⟩
  · rw [run_append, hv.run_eq, hw.run_eq]
  · rw [hv.run_eq]
    exact hw.guarded
  · simp [hv.oneLine, hw.oneLine]
  · obtain h | h := List.mem_append.1 h
    · exact hv.tick h
    · exact hw.tick h
  · obtain ⟨a', rfl, ha⟩ | ⟨b', hb, hn⟩ := append_split h
    · rw [run_append, hv.run_eq]
      exact hw.bracket a' b ha
    · obtain ⟨c, b', rfl⟩ := List.exists_cons_of_ne_nil hn
      rw [hb, List.append_assoc, List.cons_append] at h
      obtain ⟨rfl, rfl⟩ := List.cons.inj (List.append_cancel_left h)
      obtain ⟨l, r, hl, hr⟩ | ho := hv.bracket a b' hb
      · exact .inl ⟨l, r ++ w, hl, by rw [← List.cons_append, hr, List.append_assoc]⟩
      · exact .inr ho

theorem bare (h : w.all isFrame) : Written L T w := by
  have h : ∀ c ∈ w, c ≠ '"' ∧ c ≠ '\\' ∧ c ≠ '[' ∧ c ≠ '`' ∧ c ≠ '\n' := by
    simpa [isFrame, and_assoc] using h
  obtain ⟨hr, hg⟩ := run_out fun c hc => ⟨(h c hc).1, (h c hc).2.2.2.1, (h c hc).2.1⟩
  refine ⟨hr, hg, fun hm => (h _ hm).2.2.2.2 rfl, fun hm => absurd rfl (h _ hm).2.2.2.1, ?_⟩
  rintro a b rfl
  exact absurd rfl (h '[' (by simp)).2.2.1

theorem flatMap {α : Type} {f : α → List Char} {xs : List α} (h : ∀ x ∈ xs, Written L T (f x)) :
    Written L T (xs.flatMap f) := by
  induction xs with
  | nil => exact bare rfl
  | cons x xs ih => exact (h x (by simp)).append (ih fun y hy => h y (by simp [hy]))

theorem literal {t : LooseText} (ht : t.Exact) (hT : T t) : Written L T (writeString t) := by
  have hq := quiet_plainText ht
  have hw : writeString t = '"' :: (plainText t ++ ['"']) := writeString_eq t
  rw [hw]
  refine ⟨?_, ?_, fun h => ?_, fun h => ⟨t, hT, ?_⟩, fun a b h => .inr ?_⟩
  · change run .text (plainText t ++ ['"']) = .out
    rw [run_append, hq.run_eq]
    rfl
  · refine ⟨by simp [Fits], guarded_append.2 ⟨hq.guarded, ?_⟩⟩
    change Guarded (run .text (plainText t)) ['"']
    simp [hq.run_eq, Guarded, Fits]
  · have h : '\n' ∈ plainText t := by simpa using h
    obtain ⟨-, h⟩ | h | h := mem_plainText ht h <;> exact absurd h (by decide)
  · have h : '`' ∈ plainText t := by simpa using h
    obtain ⟨h, -⟩ | h | h := mem_plainText ht h
    · exact h
    · exact absurd h (by decide)
    · exact absurd h (by decide)
  · cases a with
    | nil => exact absurd (List.cons.inj h).1 (by decide)
    | cons c a =>
      obtain ⟨rfl, hs⟩ := List.cons.inj h
      obtain ⟨a', -, ha⟩ | ⟨b', hb, hn⟩ := append_split hs
      · exact absurd (show '[' ∈ ['"'] by simp [ha]) (by decide)
      · refine ⟨hq.inside a b' hb, t, hT, ?_⟩
        obtain ⟨c, b', rfl⟩ := List.exists_cons_of_ne_nil hn
        rw [hb, List.append_assoc, List.cons_append] at hs
        obtain ⟨rfl, -⟩ := List.cons.inj (List.append_cancel_left hs)
        obtain ⟨h, -⟩ | h | h := mem_plainText ht (show '[' ∈ plainText t by simp [hb])
        · exact h
        · exact absurd h (by decide)
        · exact absurd h (by decide)

theorem array {xs : List Json} (h : Written L T (plainInside xs)) (hL : L xs) :
    Written L T (render .plain (.array xs)) := by
  rw [render_array]
  refine ⟨h.run_eq, ⟨by simp [Fits], h.guarded⟩, by simp [h.oneLine], fun hm => ?_, fun a b hw => ?_⟩
  · exact h.tick (by simpa using hm)
  · cases a with
    | nil => exact .inl ⟨xs, [], hL, by rw [List.append_nil, render_array, hw, List.nil_append]⟩
    | cons c a =>
      obtain ⟨rfl, ht⟩ := List.cons.inj hw
      exact h.bracket a b ht

end Written

theorem written_inside {xs : List Json}
    (h : ∀ x ∈ xs, Written (ListOf · x) (TextOf · x) (render .plain x)) :
    Written (fun l => ∃ x ∈ xs, ListOf l x) (fun t => ∃ x ∈ xs, TextOf t x) (plainInside xs) := by
  cases xs with
  | nil => exact .bare rfl
  | cons x xs =>
    have hx (y : Json) (hy : y ∈ x :: xs) : Written (fun l => ∃ z ∈ x :: xs, ListOf l z)
        (fun t => ∃ z ∈ x :: xs, TextOf t z) (render .plain y) :=
      (h y hy).mono (fun _ hl => ⟨y, hy, hl⟩) (fun _ ht => ⟨y, hy, ht⟩)
    rw [plainInside, plainItems_eq]
    refine (hx x (by simp)).append (.append (.flatMap fun y hy => ?_) (.bare rfl))
    exact .append (.bare rfl) (hx y (by simp [hy]))

theorem written_member {fs : Fields} {n : LooseText} {v : Json} (hf : (n, v) ∈ fs) (hn : n.Exact)
    (h : Written (ListOf · v) (TextOf · v) (render .plain v)) :
    Written (ListOf · (.object fs)) (TextOf · (.object fs)) (plainMember n v) := by
  have hv := h.mono (fun _ => ListOf.value hf) (fun _ => TextOf.value hf)
  have hc : plainMember n v = writeString n ++ ([':', ' '] ++ render .plain v) := rfl
  rw [hc]
  exact (Written.literal hn (.name hf)).append (.append (.bare rfl) hv)

theorem written_render {v : Json} (h : v.Exact) :
    Written (ListOf · v) (TextOf · v) (render .plain v) := by
  induction v using induct with
  | null => exact .bare rfl
  | bool b => cases b <;> exact .bare rfl
  | int i =>
    refine .bare (List.all_eq_true.2 fun c hc => ?_)
    have hm : c = '-' ∨ c.isDigit := by
      rw [render, write, toList_int, List.mem_append] at hc
      obtain hc | hc := hc
      · split at hc
        · exact .inl (List.mem_singleton.1 hc)
        · cases hc
      · exact .inr (Nat.isDigit_of_mem_toDigits (by decide) (by decide) hc)
    simp only [isFrame, Bool.and_eq_true, bne_iff_ne]
    refine ⟨⟨⟨⟨?_, ?_⟩, ?_⟩, ?_⟩, ?_⟩ <;> rintro rfl <;> exact absurd hm (by decide)
  | float x => exact h.elim
  | string t => exact .literal h .self
  | array xs ih =>
    have hi := written_inside fun x hx => ih x hx (exactItems_iff.1 h x hx)
    exact (hi.mono (fun _ ⟨_, hx, hl⟩ => .item hx hl) (fun _ ⟨_, hx, ht⟩ => .item hx ht)).array .self
  | object fs ih =>
    cases fs with
    | nil => exact .bare rfl
    | cons f fs =>
      obtain ⟨n, v⟩ := f
      have he := exactFields_iff.1 h.2
      have hm (f : LooseText × Json) (hf : f ∈ (n, v) :: fs) :=
        written_member (n := f.1) (v := f.2) hf (he f hf).1 (ih f hf (he f hf).2)
      have hc : render .plain (.object ((n, v) :: fs)) = ['\x7b'] ++ (plainMember n v ++
        (fs.flatMap (fun f => [',', ' '] ++ plainMember f.1 f.2) ++ ['\x7d'])) := by
        rw [render_object, plainFields_eq]
        rfl
      rw [hc]
      refine .append (.bare rfl) ((hm (n, v) (by simp)).append (.append
        (.flatMap fun f hf => ?_) (.bare rfl)))
      exact .append (.bare rfl) (hm f (by simp [hf]))

end CodeAudit.Json
