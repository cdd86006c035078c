import CodeAudit.Proofs.Json.Numeral
import CodeAudit.Proofs.Json.Quoted

/-!
What the reader of JSON does with a text: each call opened into its cases, and what holds of every
reading. The rest is a tail of the text, more text behind a list changes only the rest, and an excess is
one of digits only where the text holds that many of them in a row.
-/
set_option autoImplicit false

namespace CodeAudit.Json

namespace Reader

theorem skip_suffix (s : List Char) : skip s <:+ s := List.dropWhile_suffix _

theorem skip_append {s : List Char} (h : skip s ≠ []) (k : List Char) :
    skip (s ++ k) = skip s ++ k := by
  unfold skip at *
  rw [List.dropWhile_append, if_neg (by simpa using h)]

theorem skip_append_cons {s t : List Char} {c : Char} (h : skip s = c :: t) (k : List Char) :
    skip (s ++ k) = c :: (t ++ k) := by
  rw [skip_append (by simp [h]), h, List.cons_append]

theorem skip_append_ne {s : List Char} {c : Char} (hn : skip s ≠ [])
    (h : ∀ t, skip s ≠ c :: t) (k t : List Char) : skip (s ++ k) ≠ c :: t := by
  obtain ⟨d, r, hr⟩ := List.exists_cons_of_ne_nil hn
  rw [skip_append_cons hr]
  intro he
  cases he
  exact h r hr

/-- What a call for a value gives when it succeeds, case by case. -/
inductive ValueStep (fuel : Nat) : Nat → List Char → Json → List Char → Prop where
  | string {room : Nat} {s r : List Char} {t : LooseText} (h : readString s = .ok (t, r)) :
      ValueStep fuel room ('"' :: s) (.string t) r
  | emptyArray {room : Nat} {s r : List Char} (h : skip s = ']' :: r) :
      ValueStep fuel (room + 1) ('[' :: s) (.array []) r
  | array {room : Nat} {s r : List Char} {xs : List Json} (hs : ∀ r', skip s ≠ ']' :: r')
      (h : readItems fuel room (skip s) = .ok (xs, r)) :
      ValueStep fuel (room + 1) ('[' :: s) (.array xs) r
  | emptyObject {room : Nat} {s r : List Char} (h : skip s = '}' :: r) :
      ValueStep fuel (room + 1) ('{' :: s) (.object []) r
  | object {room : Nat} {s r : List Char} {fs : Fields} (hs : ∀ r', skip s ≠ '}' :: r')
      (h : readFields fuel room [] (skip s) = .ok (fs, r)) :
      ValueStep fuel (room + 1) ('{' :: s) (.object fs) r
  | plain {room : Nat} {s r : List Char} {v : Json} (hq : s.head? ≠ some '"')
      (hb : s.head? ≠ some '[') (ho : s.head? ≠ some '{') (h : readPlain s = .ok (v, r)) :
      ValueStep fuel room s v r

theorem map_eq_ok {ε α β : Type} {f : α → β} {x : Except ε α} {b : β} :
    x.map f = .ok b ↔ ∃ a, x = .ok a ∧ f a = b := by
  cases x <;> simp [Except.map]

theorem map_eq_error {ε α β : Type} {f : α → β} {x : Except ε α} {e : ε} :
    x.map f = .error e ↔ x = .error e := by
  cases x <;> simp [Except.map]

theorem readValue_succ {fuel room : Nat} {s r : List Char} {v : Json} :
    readValue (fuel + 1) room s = .ok (v, r) ↔ ValueStep fuel room s v r := by
  constructor
  · intro h
    unfold readValue at h
    split at h
    · obtain ⟨⟨t, r⟩, ht, hv⟩ := map_eq_ok.1 h
      cases hv
      exact .string ht
    · split at h
      · cases h
      · split at h
        · cases h
          exact .emptyArray ‹_›
        · obtain ⟨⟨xs, r⟩, hx, hv⟩ := map_eq_ok.1 h
          cases hv
          exact .array (fun r' hr => by simp_all) hx
    · split at h
      · cases h
      · split at h
        · cases h
          exact .emptyObject ‹_›
        · obtain ⟨⟨fs, r⟩, hf, hv⟩ := map_eq_ok.1 h
          cases hv
          exact .object (fun r' hr => by simp_all) hf
    · rename_i hq hb ho
      exact .plain (by cases s <;> simp_all) (by cases s <;> simp_all) (by cases s <;> simp_all) h
  · intro h
    cases h with
    | string h => simp [readValue, h, Except.map]
    | emptyArray h => simp [readValue, h]
    | array hs h => simp [readValue, h, Except.map]
    | emptyObject h => simp [readValue, h]
    | object hs h => simp [readValue, h, Except.map]
    | plain hq hb ho h =>
      unfold readValue
      simp only
      split <;> simp_all

/-- Where a call for a value meets an excess: at a bracket that finds no room, inside of what it opens, or
in a number. -/
inductive ValueExcess (e : Excess) (fuel : Nat) : Nat → List Char → Prop where
  | bracket {c : Char} {s : List Char} (hc : c = '[' ∨ c = '{') (he : e = .nesting) :
      ValueExcess e fuel 0 (c :: s)
  | array {room : Nat} {s : List Char} (hs : ∀ r', skip s ≠ ']' :: r')
      (h : readItems fuel room (skip s) = .error (.excess e)) :
      ValueExcess e fuel (room + 1) ('[' :: s)
  | object {room : Nat} {s : List Char} (hs : ∀ r', skip s ≠ '}' :: r')
      (h : readFields fuel room [] (skip s) = .error (.excess e)) :
      ValueExcess e fuel (room + 1) ('{' :: s)
  | plain {room : Nat} {s : List Char} (h : readPlain s = .error (.excess e)) :
      ValueExcess e fuel room s

theorem readValue_excess {fuel room : Nat} {s : List Char} {e : Excess}
    (h : readValue (fuel + 1) room s = .error (.excess e)) : ValueExcess e fuel room s := by
  unfold readValue at h
  split at h
  · exact absurd (map_eq_error.1 h) (readString_ne_excess _ e)
  · split at h
    · cases h
      exact .bracket (.inl rfl) rfl
    · split at h
      · cases h
      · exact .array (fun r' hr => by simp_all) (map_eq_error.1 h)
  · split at h
    · cases h
      exact .bracket (.inr rfl) rfl
    · split at h
      · cases h
      · exact .object (fun r' hr => by simp_all) (map_eq_error.1 h)
  · exact .plain h

theorem readValue_noRoom {c : Char} (hc : c = '[' ∨ c = '{') (fuel : Nat) (s : List Char) :
    readValue (fuel + 1) 0 (c :: s) = .error (.excess .nesting) := by
  obtain rfl | rfl := hc <;> rfl

theorem readValue_of_items {fuel room : Nat} {s : List Char} {e : Refusal} (hs : ∀ t, skip s ≠ ']' :: t)
    (h : readItems fuel room (skip s) = .error e) :
    readValue (fuel + 1) (room + 1) ('[' :: s) = .error e := by
  simp [readValue, h, Except.map]

theorem readValue_of_fields {fuel room : Nat} {s : List Char} {e : Refusal} (hs : ∀ t, skip s ≠ '}' :: t)
    (h : readFields fuel room [] (skip s) = .error e) :
    readValue (fuel + 1) (room + 1) ('{' :: s) = .error e := by
  simp [readValue, h, Except.map]

inductive ItemsStep (fuel room : Nat) (s : List Char) : List Json → List Char → Prop where
  | last {r r' : List Char} {v : Json} (hv : readValue fuel room s = .ok (v, r))
      (hr : skip r = ']' :: r') : ItemsStep fuel room s [v] r'
  | more {r r₁ r₂ : List Char} {v : Json} {vs : List Json} (hv : readValue fuel room s = .ok (v, r))
      (hr : skip r = ',' :: r₁) (hvs : readItems fuel room (skip r₁) = .ok (vs, r₂)) :
      ItemsStep fuel room s (v :: vs) r₂

theorem readItems_succ {fuel room : Nat} {s r : List Char} {xs : List Json} :
    readItems (fuel + 1) room s = .ok (xs, r) ↔ ItemsStep fuel room s xs r := by
  constructor
  · intro h
    rw [readItems] at h
    cases hv : readValue fuel room s with
    | error e => simp [hv, bind, Except.bind] at h
    | ok x =>
      obtain ⟨v, r₀⟩ := x
      simp only [hv, bind, Except.bind] at h
      split at h
      · cases h
        exact .last hv ‹_›
      · rename_i r₁ hr
        cases hvs : readItems fuel room (skip r₁) with
        | error e => simp [hvs] at h
        | ok y =>
          simp only [hvs] at h
          cases h
          exact .more hv hr hvs
      · cases h
  · intro h
    cases h with
    | last hv hr => simp [readItems, hv, hr, bind, Except.bind, pure, Except.pure]
    | more hv hr hvs => simp [readItems, hv, hr, hvs, bind, Except.bind, pure, Except.pure]

inductive ItemsExcess (e : Excess) (fuel room : Nat) (s : List Char) : Prop where
  | first (h : readValue fuel room s = .error (.excess e))
  | rest {r r₁ : List Char} {v : Json} (hv : readValue fuel room s = .ok (v, r))
      (hr : skip r = ',' :: r₁) (h : readItems fuel room (skip r₁) = .error (.excess e))

theorem readItems_excess {fuel room : Nat} {s : List Char} {e : Excess} :
    readItems (fuel + 1) room s = .error (.excess e) ↔ ItemsExcess e fuel room s := by
  constructor
  · intro h
    rw [readItems] at h
    cases hv : readValue fuel room s with
    | error e' =>
      simp only [hv, bind, Except.bind, Except.error.injEq] at h
      exact .first (h ▸ hv)
    | ok x =>
      obtain ⟨v, r⟩ := x
      simp only [hv, bind, Except.bind] at h
      split at h
      · cases h
      · rename_i r₁ hr
        cases hvs : readItems fuel room (skip r₁) with
        | error e' =>
          simp only [hvs, Except.error.injEq] at h
          exact .rest hv hr (h ▸ hvs)
        | ok y =>
          simp only [hvs] at h
          cases h
      · cases h
  · intro h
    cases h with
    | first h => simp [readItems, h, bind, Except.bind]
    | rest hv hr h => simp [readItems, hv, hr, h, bind, Except.bind]

inductive FieldsStep (fuel room : Nat) (seen : Fields) : List Char → Fields → List Char → Prop where
  | last {s r r₁ r₂ r₃ : List Char} {n : LooseText} {v : Json} (hn : readString s = .ok (n, r))
      (hc : skip r = ':' :: r₁) (hv : readValue fuel room (skip r₁) = .ok (v, r₂))
      (hr : skip r₂ = '}' :: r₃) : FieldsStep fuel room seen ('"' :: s) (seen.put n v) r₃
  | more {s r r₁ r₂ r₃ r₄ : List Char} {n : LooseText} {v : Json} {fs : Fields}
      (hn : readString s = .ok (n, r)) (hc : skip r = ':' :: r₁)
      (hv : readValue fuel room (skip r₁) = .ok (v, r₂)) (hr : skip r₂ = ',' :: r₃)
      (hfs : readFields fuel room (seen.put n v) (skip r₃) = .ok (fs, r₄)) :
      FieldsStep fuel room seen ('"' :: s) fs r₄

theorem readFields_succ {fuel room : Nat} {seen fs : Fields} {s r : List Char} :
    readFields (fuel + 1) room seen s = .ok (fs, r) ↔ FieldsStep fuel room seen s fs r := by
  constructor
  · intro h
    unfold readFields at h
    split at h
    · rename_i s
      cases hn : readString s with
      | error e => simp [hn, bind, Except.bind] at h
      | ok x =>
        obtain ⟨n, r₀⟩ := x
        simp only [hn, bind, Except.bind] at h
        split at h
        · rename_i r₁ hc
          cases hv : readValue fuel room (skip r₁) with
          | error e => simp [hv] at h
          | ok y =>
            obtain ⟨v, r₂⟩ := y
            simp only [hv] at h
            split at h
            · cases h
              exact .last hn hc hv ‹_›
            · exact .more hn hc hv ‹_› h
            · cases h
        · cases h
    · cases h
  · intro h
    cases h with
    | last hn hc hv hr => simp [readFields, hn, hc, hv, hr, bind, Except.bind, pure, Except.pure]
    | more hn hc hv hr hfs => simp [readFields, hn, hc, hv, hr, hfs, bind, Except.bind]

inductive FieldsExcess (e : Excess) (fuel room : Nat) (seen : Fields) : List Char → Prop where
  | value {s r r₁ : List Char} {n : LooseText} (hn : readString s = .ok (n, r))
      (hc : skip r = ':' :: r₁) (h : readValue fuel room (skip r₁) = .error (.excess e)) :
      FieldsExcess e fuel room seen ('"' :: s)
  | rest {s r r₁ r₂ r₃ : List Char} {n : LooseText} {v : Json} (hn : readString s = .ok (n, r))
      (hc : skip r = ':' :: r₁) (hv : readValue fuel room (skip r₁) = .ok (v, r₂))
      (hr : skip r₂ = ',' :: r₃)
      (h : readFields fuel room (seen.put n v) (skip r₃) = .error (.excess e)) :
      FieldsExcess e fuel room seen ('"' :: s)

theorem readFields_excess {fuel room : Nat} {seen : Fields} {s : List Char} {e : Excess} :
    readFields (fuel + 1) room seen s = .error (.excess e) ↔ FieldsExcess e fuel room seen s := by
  constructor
  · intro h
    unfold readFields at h
    split at h
    · rename_i s
      cases hn : readString s with
      | error e' =>
        simp only [hn, bind, Except.bind, Except.error.injEq] at h
        exact absurd (h ▸ hn) (readString_ne_excess s e)
      | ok x =>
        obtain ⟨n, r⟩ := x
        simp only [hn, bind, Except.bind] at h
        split at h
        · rename_i r₁ hc
          cases hv : readValue fuel room (skip r₁) with
          | error e' =>
            simp only [hv, Except.error.injEq] at h
            exact .value hn hc (h ▸ hv)
          | ok y =>
            obtain ⟨v, r₂⟩ := y
            simp only [hv] at h
            split at h
            · cases h
            · exact .rest hn hc hv ‹_› h
            · cases h
        · cases h
    · cases h
  · intro h
    cases h with
    | value hn hc h => simp [readFields, hn, hc, h, bind, Except.bind]
    | rest hn hc hv hr h => simp [readFields, hn, hc, hv, hr, h, bind, Except.bind]

theorem suffix_of_skip {s t : List Char} {c : Char} (h : skip s = c :: t) : t <:+ s :=
  (List.suffix_cons c t).trans (h ▸ skip_suffix s)

/-- What is left after a reading is a tail of the text. -/
theorem read_suffix (fuel : Nat) :
    (∀ {room s v r}, readValue fuel room s = .ok (v, r) → r <:+ s) ∧
    (∀ {room s xs r}, readItems fuel room s = .ok (xs, r) → r <:+ s) ∧
    (∀ {room seen s fs r}, readFields fuel room seen s = .ok (fs, r) → r <:+ s) := by
  induction fuel with
  | zero => simp [readValue, readItems, readFields]
  | succ fuel ih =>
    obtain ⟨hv, hi, hf⟩ := ih
    refine ⟨fun h => ?_, fun h => ?_, fun h => ?_⟩
    · cases readValue_succ.1 h with
      | string h => exact (readString_suffix h).trans (List.suffix_cons _ _)
      | emptyArray h | emptyObject h => exact (suffix_of_skip h).trans (List.suffix_cons _ _)
      | array _ h => exact ((hi h).trans (skip_suffix _)).trans (List.suffix_cons _ _)
      | object _ h => exact ((hf h).trans (skip_suffix _)).trans (List.suffix_cons _ _)
      | plain _ _ _ h => exact (readPlain_behind h).suffix
    · cases readItems_succ.1 h with
      | last h₁ h₂ => exact (suffix_of_skip h₂).trans (hv h₁)
      | more h₁ h₂ h₃ =>
        exact ((hi h₃).trans (skip_suffix _)).trans ((suffix_of_skip h₂).trans (hv h₁))
    · cases readFields_succ.1 h with
      | last h₁ h₂ h₃ h₄ =>
        have h₅ := (suffix_of_skip h₂).trans (readString_suffix h₁)
        have h₆ := (suffix_of_skip h₄).trans ((hv h₃).trans ((skip_suffix _).trans h₅))
        exact h₆.trans (List.suffix_cons _ _)
      | more h₁ h₂ h₃ h₄ h₅ =>
        have h₆ := (suffix_of_skip h₂).trans (readString_suffix h₁)
        have h₇ := (suffix_of_skip h₄).trans ((hv h₃).trans ((skip_suffix _).trans h₆))
        exact ((hf h₅).trans ((skip_suffix _).trans h₇)).trans (List.suffix_cons _ _)

theorem readValue_nil (fuel room : Nat) : readValue fuel room [] = .error .malformed := by
  cases fuel <;> rfl

theorem readItems_nil (fuel room : Nat) : readItems fuel room [] = .error .malformed := by
  match fuel with
  | 0 | 1 | fuel + 2 => rfl

theorem readFields_nil (fuel room : Nat) (seen : Fields) :
    readFields fuel room seen [] = .error .malformed := by
  cases fuel <;> rfl

theorem readValue_ne_nil {fuel room : Nat} {s : List Char} {x : Except Refusal (Json × List Char)}
    (h : readValue fuel room s = x) (hx : x ≠ .error .malformed) : s ≠ [] := by
  rintro rfl
  exact hx (h.symm.trans (readValue_nil fuel room))

theorem readItems_ne_nil {fuel room : Nat} {s : List Char} {x : Except Refusal (List Json × List Char)}
    (h : readItems fuel room s = x) (hx : x ≠ .error .malformed) : s ≠ [] := by
  rintro rfl
  exact hx (h.symm.trans (readItems_nil fuel room))

theorem readFields_ne_nil {fuel room : Nat} {seen : Fields} {s : List Char}
    {x : Except Refusal (Fields × List Char)} (h : readFields fuel room seen s = x)
    (hx : x ≠ .error .malformed) : s ≠ [] := by
  rintro rfl
  exact hx (h.symm.trans (readFields_nil fuel room seen))

theorem ends_of_skip {r t : List Char} {c : Char} (h : skip r = c :: t)
    (hc : c = ',' ∨ c = ']' ∨ c = '}') : r ≠ [] ∧ Ends r := by
  cases r with
  | nil => cases h
  | cons d r =>
    refine ⟨by simp, .cons r ?_⟩
    by_cases hd : isSpace d
    · simp only [isSpace, Bool.or_eq_true, decide_eq_true_eq] at hd
      obtain ((rfl | rfl) | rfl) | rfl := hd <;> decide
    · have he : d = c := by simp_all [skip]
      subst he
      obtain rfl | rfl | rfl := hc <;> decide

theorem exists_fuel {n m : Nat} (h : n + 1 ≤ m) : ∃ k, m = k + 1 ∧ n ≤ k := ⟨m - 1, by omega, by omega⟩

/-- A reading that ended before the end of the text and not inside a number, or that of a list, is not
changed by text put behind it. -/
theorem read_append (fuel : Nat) (k : List Char) :
    (∀ {fuel' room s v r}, fuel ≤ fuel' → readValue fuel room s = .ok (v, r) →
      r ≠ [] ∧ Ends r ∨ s.head? = some '[' → readValue fuel' room (s ++ k) = .ok (v, r ++ k)) ∧
    (∀ {fuel' room s xs r}, fuel ≤ fuel' → readItems fuel room s = .ok (xs, r) →
      readItems fuel' room (s ++ k) = .ok (xs, r ++ k)) ∧
    (∀ {fuel' room seen s fs r}, fuel ≤ fuel' → readFields fuel room seen s = .ok (fs, r) →
      readFields fuel' room seen (s ++ k) = .ok (fs, r ++ k)) := by
  induction fuel with
  | zero => simp [readValue, readItems, readFields]
  | succ fuel ih =>
    obtain ⟨hv, hi, hf⟩ := ih
    refine ⟨fun {fuel'} _ _ _ _ hl h he => ?_, fun {fuel'} _ _ _ _ hl h => ?_,
      fun {fuel'} _ _ _ _ _ hl h => ?_⟩
    all_goals obtain ⟨fuel', rfl, hle⟩ := exists_fuel hl
    · cases readValue_succ.1 h with
      | string h => exact readValue_succ.2 (.string (readString_append h k))
      | emptyArray h => exact readValue_succ.2 (.emptyArray (skip_append_cons h k))
      | emptyObject h => exact readValue_succ.2 (.emptyObject (skip_append_cons h k))
      | array hs h =>
        have hn := readItems_ne_nil h (by simp)
        have hk := hi hle h
        rw [← skip_append hn k] at hk
        exact readValue_succ.2 (.array (skip_append_ne hn hs k) hk)
      | object hs h =>
        have hn := readFields_ne_nil h (by simp)
        have hk := hf hle h
        rw [← skip_append hn k] at hk
        exact readValue_succ.2 (.object (skip_append_ne hn hs k) hk)
      | plain hq hb ho h' =>
        obtain ⟨hr, he⟩ := he.resolve_right hb
        have hk := readPlain_append h' hr he k
        obtain ⟨c, t, rfl⟩ := List.exists_cons_of_ne_nil (readValue_ne_nil h (by simp))
        exact readValue_succ.2 (.plain hq hb ho hk)
    · cases readItems_succ.1 h with
      | last h₁ h₂ =>
        have he := ends_of_skip h₂ (by simp)
        exact readItems_succ.2 (.last (hv hle h₁ (.inl he)) (skip_append_cons h₂ k))
      | more h₁ h₂ h₃ =>
        have he := ends_of_skip h₂ (by simp)
        have hk := hi hle h₃
        rw [← skip_append (readItems_ne_nil h₃ (by simp)) k] at hk
        exact readItems_succ.2 (.more (hv hle h₁ (.inl he)) (skip_append_cons h₂ k) hk)
    · cases readFields_succ.1 h with
      | last h₁ h₂ h₃ h₄ =>
        have he := ends_of_skip h₄ (by simp)
        have hk := hv hle h₃ (.inl he)
        rw [← skip_append (readValue_ne_nil h₃ (by simp)) k] at hk
        exact readFields_succ.2 (.last (readString_append h₁ k) (skip_append_cons h₂ k) hk
          (skip_append_cons h₄ k))
      | more h₁ h₂ h₃ h₄ h₅ =>
        have he := ends_of_skip h₄ (by simp)
        have hk := hv hle h₃ (.inl he)
        rw [← skip_append (readValue_ne_nil h₃ (by simp)) k] at hk
        have hk' := hf hle h₅
        rw [← skip_append (readFields_ne_nil h₅ (by simp)) k] at hk'
        exact readFields_succ.2 (.more (readString_append h₁ k) (skip_append_cons h₂ k) hk
          (skip_append_cons h₄ k) hk')

theorem nesting_append (fuel : Nat) (k : List Char) :
    (∀ {fuel' room s}, fuel ≤ fuel' → readValue fuel room s = .error (.excess .nesting) →
      readValue fuel' room (s ++ k) = .error (.excess .nesting)) ∧
    (∀ {fuel' room s}, fuel ≤ fuel' → readItems fuel room s = .error (.excess .nesting) →
      readItems fuel' room (s ++ k) = .error (.excess .nesting)) ∧
    (∀ {fuel' room seen s}, fuel ≤ fuel' → readFields fuel room seen s = .error (.excess .nesting) →
      readFields fuel' room seen (s ++ k) = .error (.excess .nesting)) := by
  induction fuel with
  | zero => simp [readValue, readItems, readFields]
  | succ fuel ih =>
    obtain ⟨hv, hi, hf⟩ := ih
    refine ⟨fun {fuel'} _ _ hl h => ?_, fun {fuel'} _ _ hl h => ?_, fun {fuel'} _ _ _ hl h => ?_⟩
    all_goals obtain ⟨fuel', rfl, hle⟩ := exists_fuel hl
    · cases readValue_excess h with
      | bracket hc => exact readValue_noRoom hc _ _
      | array hs h' =>
        have hn := readItems_ne_nil h' (by simp)
        have hk := hi hle h'
        rw [← skip_append hn k] at hk
        exact readValue_of_items (skip_append_ne hn hs k) hk
      | object hs h' =>
        have hn := readFields_ne_nil h' (by simp)
        have hk := hf hle h'
        rw [← skip_append hn k] at hk
        exact readValue_of_fields (skip_append_ne hn hs k) hk
      | plain h' => cases (readPlain_excess h').1
    · cases readItems_excess.1 h with
      | first h => exact readItems_excess.2 (.first (hv hle h))
      | rest h₁ h₂ h₃ =>
        have he := ends_of_skip h₂ (by simp)
        have hk := hi hle h₃
        rw [← skip_append (readItems_ne_nil h₃ (by simp)) k] at hk
        exact readItems_excess.2 (.rest ((read_append fuel k).1 hle h₁ (.inl he))
          (skip_append_cons h₂ k) hk)
    · cases readFields_excess.1 h with
      | value h₁ h₂ h₃ =>
        have hk := hv hle h₃
        rw [← skip_append (readValue_ne_nil h₃ (by simp)) k] at hk
        exact readFields_excess.2 (.value (readString_append h₁ k) (skip_append_cons h₂ k) hk)
      | rest h₁ h₂ h₃ h₄ h₅ =>
        have he := ends_of_skip h₄ (by simp)
        have hk := (read_append fuel k).1 hle h₃ (.inl he)
        rw [← skip_append (readValue_ne_nil h₃ (by simp)) k] at hk
        have hk' := hf hle h₅
        rw [← skip_append (readFields_ne_nil h₅ (by simp)) k] at hk'
        exact readFields_excess.2 (.rest (readString_append h₁ k) (skip_append_cons h₂ k) hk
          (skip_append_cons h₄ k) hk')

theorem readPlain_ne_object {s r : List Char} {fs : Fields} : readPlain s ≠ .ok (.object fs, r) := by
  intro h
  have hnumber {neg : Bool} {s : List Char} : readNumber neg s ≠ .ok (.object fs, r) := by
    intro h
    cases readNumber_eq_ok.1 h
  unfold readPlain at h
  split at h
  · rename_i x hx
    cases h
    obtain ⟨w, hw, -⟩ := word?_eq_some.1 hx
    simp [words] at hw
  · split at h
    · exact hnumber h
    · exact hnumber h

/-- Only a text with a long run of digits is refused for an integer that is too long. -/
theorem read_long (fuel : Nat) :
    (∀ {room s}, readValue fuel room s = .error (.excess .digits) → LongRun s) ∧
    (∀ {room s}, readItems fuel room s = .error (.excess .digits) → LongRun s) ∧
    (∀ {room seen s}, readFields fuel room seen s = .error (.excess .digits) → LongRun s) := by
  induction fuel with
  | zero => simp [readValue, readItems, readFields]
  | succ fuel ih =>
    obtain ⟨hv, hi, hf⟩ := ih
    have hsuffix {room : Nat} {s r : List Char} {v : Json} (h : readValue fuel room s = .ok (v, r)) :
        skip r <:+ s := (skip_suffix r).trans ((read_suffix fuel).1 h)
    refine ⟨fun h => ?_, fun h => ?_, fun h => ?_⟩
    · cases readValue_excess h with
      | bracket _ he => cases he
      | array _ h' => exact (hi h').mono ((skip_suffix _).trans (List.suffix_cons _ _)).isInfix
      | object _ h' => exact (hf h').mono ((skip_suffix _).trans (List.suffix_cons _ _)).isInfix
      | plain h' => exact (readPlain_excess h').2
    · cases readItems_excess.1 h with
      | first h => exact hv h
      | rest h₁ h₂ h₃ =>
        exact (hi h₃).mono ((skip_suffix _).trans ((suffix_of_skip h₂).trans
          ((read_suffix fuel).1 h₁))).isInfix
    · cases readFields_excess.1 h with
      | value h₁ h₂ h₃ =>
        have hr := (suffix_of_skip h₂).trans (readString_suffix h₁)
        exact (hv h₃).mono ((skip_suffix _).trans (hr.trans (List.suffix_cons _ _))).isInfix
      | rest h₁ h₂ h₃ h₄ h₅ =>
        have hr := (suffix_of_skip h₂).trans (readString_suffix h₁)
        have hr' := (suffix_of_skip h₄).trans (((read_suffix fuel).1 h₃).trans ((skip_suffix _).trans hr))
        exact (hf h₅).mono ((skip_suffix _).trans (hr'.trans (List.suffix_cons _ _))).isInfix

end Reader

open Reader

variable {limit : Nat}

/-- A list is read the same way whatever stands behind it. -/
theorem readAt_append {s r : List Char} {v : Json} (h : readAt limit s = .ok (v, r))
    (hs : s.head? = some '[') (k : List Char) : readAt limit (s ++ k) = .ok (v, r ++ k) :=
  (read_append _ k).1 (by rw [List.length_append]; omega) h (.inr hs)

theorem readAt_append_nesting {s : List Char} (h : readAt limit s = .error (.excess .nesting))
    (k : List Char) : readAt limit (s ++ k) = .error (.excess .nesting) :=
  (nesting_append _ k).1 (by rw [List.length_append]; omega) h

theorem readAt_long {s : List Char} (h : readAt limit s = .error (.excess .digits)) : LongRun s :=
  (read_long _).1 h

theorem ofText_of_readAt {s : List Char} {x : Except Refusal (Json × List Char)}
    (h : readAt limit (skip s) = x) :
    ofText limit s = x.bind fun (v, r) => if (skip r).isEmpty then .ok v else .error .malformed := by
  rw [ofText, h]
  rfl

theorem ofText_eq_ok {s : List Char} {v : Json} :
    ofText limit s = .ok v ↔ ∃ r, readAt limit (skip s) = .ok (v, r) ∧ skip r = [] := by
  cases hread : readAt limit (skip s) with
  | error e => simp [ofText_of_readAt hread, Except.bind]
  | ok x => cases h : skip x.2 <;> simp +contextual [ofText_of_readAt hread, Except.bind, Prod.ext_iff, h]

theorem ofText_excess {s : List Char} {e : Excess} :
    ofText limit s = .error (.excess e) ↔ readAt limit (skip s) = .error (.excess e) := by
  cases hread : readAt limit (skip s) with
  | error e => simp [ofText_of_readAt hread, Except.bind]
  | ok x => cases h : skip x.2 <;> simp [ofText_of_readAt hread, Except.bind, h]

theorem ofText_long {s : List Char} (h : ofText limit s = .error (.excess .digits)) : LongRun s :=
  (readAt_long (ofText_excess.1 h)).mono (skip_suffix s).isInfix

end CodeAudit.Json
