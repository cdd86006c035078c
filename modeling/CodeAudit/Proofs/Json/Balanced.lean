import CodeAudit.Proofs.Json.Reading

/-!
The stretch of a text that a value is read from. Its literals end, its braces close, no tick stands outside
of its literals and no line feed inside of them. Nothing else is needed to find its end.
-/
set_option autoImplicit false

namespace CodeAudit.Json

/-- The inside of a string literal: characters, and backslashes each with the character that it escapes. -/
inductive Inside : List Char → Prop where
  | nil : Inside []
  | char {c : Char} (hq : c ≠ '"') (hb : c ≠ '\\') (hn : c ≠ '\n') : Inside [c]
  | escape {c : Char} (hn : c ≠ '\n') : Inside ['\\', c]
  | append {v w : List Char} (hv : Inside v) (hw : Inside w) : Inside (v ++ w)

def isNeutral (c : Char) : Bool := c != '"' && c != '{' && c != '}' && c != '`'

inductive Balanced : List Char → Prop where
  | nil : Balanced []
  | neutral {c : Char} (hc : isNeutral c) : Balanced [c]
  | literal {w : List Char} (h : Inside w) : Balanced ('"' :: (w ++ ['"']))
  | braces {w : List Char} (h : Balanced w) : Balanced ('{' :: (w ++ ['}']))
  | append {v w : List Char} (hv : Balanced v) (hw : Balanced w) : Balanced (v ++ w)

theorem Inside.not_mem {w : List Char} (h : Inside w) : '\n' ∉ w := by
  induction h with
  | nil => simp
  | char _ _ hn => simpa using Ne.symm hn
  | escape hn => simpa using Ne.symm hn
  | append _ _ hv hw => simp [hv, hw]

theorem Balanced.of_forall {w : List Char} (h : ∀ c ∈ w, isNeutral c) : Balanced w := by
  induction w with
  | nil => exact .nil
  | cons c w ih =>
    obtain ⟨hc, hw⟩ := List.forall_mem_cons.1 h
    exact .append (.neutral hc) (ih hw)

/-- What stands in `s` before `r` is the inside of a literal, or a part of it. -/
def Within (s r : List Char) : Prop := ∃ w, Inside w ∧ s = w ++ r

/-- What stands in `s` before `r` is balanced. -/
def Spans (s r : List Char) : Prop := ∃ w, Balanced w ∧ s = w ++ r

theorem Within.trans {s t r : List Char} (h₁ : Within s t) (h₂ : Within t r) : Within s r := by
  obtain ⟨v, hv, rfl⟩ := h₁
  obtain ⟨w, hw, rfl⟩ := h₂
  exact ⟨v ++ w, hv.append hw, (List.append_assoc v w r).symm⟩

namespace Spans

theorem trans {s t r : List Char} (h₁ : Spans s t) (h₂ : Spans t r) : Spans s r := by
  obtain ⟨v, hv, rfl⟩ := h₁
  obtain ⟨w, hw, rfl⟩ := h₂
  exact ⟨v ++ w, hv.append hw, (List.append_assoc v w r).symm⟩

theorem neutral {c : Char} (hc : isNeutral c) (r : List Char) : Spans (c :: r) r := ⟨[c], .neutral hc, rfl⟩

theorem literal {s r : List Char} (h : Within s ('"' :: r)) : Spans ('"' :: s) r := by
  obtain ⟨w, hw, rfl⟩ := h
  exact ⟨_, .literal hw, by simp⟩

theorem braces {s r : List Char} (h : Spans s ('}' :: r)) : Spans ('{' :: s) r := by
  obtain ⟨w, hw, rfl⟩ := h
  exact ⟨_, .braces hw, by simp⟩

end Spans

namespace Reader

theorem ne_of_hexValue? {c d : Char} (h : (hexValue? c).isSome) (hd : hexValue? d = none) : c ≠ d := by
  rintro rfl
  simp [hd] at h

theorem within_hex {c : Char} (h : (hexValue? c).isSome) (r : List Char) : Within (c :: r) r :=
  ⟨[c], .char (ne_of_hexValue? h (by decide)) (ne_of_hexValue? h (by decide)) (ne_of_hexValue? h (by decide)), rfl⟩

theorem unit?_within {s r : List Char} {u : Nat} (h : unit? s = some (u, r)) : Within s r := by
  unfold unit? at h
  split at h
  · simp only [Option.bind_eq_bind, Option.bind_eq_some_iff, Option.pure_def, Option.some.injEq,
      Prod.mk.injEq] at h
    obtain ⟨_, ha, _, hb, _, hc, _, hd, -, rfl⟩ := h
    have hex {c : Char} {n : Nat} (h : hexValue? c = some n) (r : List Char) : Within (c :: r) r :=
      within_hex (by simp [h]) r
    exact (hex ha _).trans ((hex hb _).trans ((hex hc _).trans (hex hd _)))
  · cases h

theorem within_escape {c : Char} (hn : c ≠ '\n') (r : List Char) : Within ('\\' :: c :: r) r :=
  ⟨['\\', c], .escape hn, rfl⟩

theorem escaped?_within {s r : List Char} {l : Letter} (h : escaped? s = some (l, r)) : Within s r := by
  cases escaped?_iff.1 h with
  | pair hu _ hv _ => exact (unit?_within hu).trans ((within_escape (by decide) _).trans (unit?_within hv))
  | high hu | alone hu | low hu | char hu => exact unit?_within hu

theorem piece?_within {s r : List Char} {l : Letter} (h : piece? s = some (some l, r)) : Within s r := by
  cases piece?_iff.1 h with
  | unit h => exact (within_escape (by decide) _).trans (escaped?_within h)
  | escape r _ h =>
    refine within_escape ?_ r
    rintro rfl
    cases h
  | char r hq hb hc =>
    refine ⟨[_], .char hq hb ?_, rfl⟩
    rintro rfl
    exact hc (by decide)

theorem string?_within {fuel : Nat} {s r : List Char} {ls : List Letter}
    (h : string? fuel s = some (ls, r)) : Within s ('"' :: r) := by
  induction fuel generalizing s ls with
  | zero => cases h
  | succ fuel ih =>
    rw [string?] at h
    split at h
    · cases h
    · rename_i hp
      cases h
      cases piece?_iff.1 hp
      exact ⟨[], .nil, rfl⟩
    · rename_i hp
      obtain ⟨⟨ls, r⟩, hs, hl⟩ := Option.map_eq_some_iff.1 h
      cases hl
      exact (piece?_within hp).trans (ih hs)

theorem readString_spans {s r : List Char} {t : LooseText} (h : readString s = .ok (t, r)) :
    Spans ('"' :: s) r := by
  obtain ⟨ls, hs, -⟩ := readString_eq_ok.1 h
  exact .literal (string?_within hs)

theorem Behind.spans {s r : List Char} (h : Behind s r) : Spans s r := by
  obtain ⟨w, rfl, hw⟩ := h
  refine ⟨w, .of_forall fun c hc => ?_, rfl⟩
  have hne {d : Char} (hd : isAtom d = false) := ne_of_isAtom (hw c hc) hd
  simp [isNeutral, hne (d := '"') (by decide), hne (d := '{') (by decide), hne (d := '}') (by decide),
    hne (d := '`') (by decide)]

theorem skip_spans (s : List Char) : Spans s (skip s) := by
  refine ⟨s.takeWhile isSpace, .of_forall fun c hc => ?_, List.takeWhile_append_dropWhile.symm⟩
  have hc := List.mem_takeWhile_imp hc
  simp only [isSpace, Bool.or_eq_true, decide_eq_true_eq] at hc
  obtain ((rfl | rfl) | rfl) | rfl := hc <;> decide

theorem spans_of_skip {s r : List Char} {c : Char} (h : skip s = c :: r) (hc : isNeutral c) : Spans s r :=
  (h ▸ skip_spans s).trans (.neutral hc r)

/-- What is read is balanced. The members of an object are read up to its closing brace, which is read with
them. -/
theorem read_spans (fuel : Nat) :
    (∀ {room s v r}, readValue fuel room s = .ok (v, r) → Spans s r) ∧
    (∀ {room s xs r}, readItems fuel room s = .ok (xs, r) → Spans s r) ∧
    (∀ {room seen s fs r}, readFields fuel room seen s = .ok (fs, r) → Spans s ('}' :: r)) := by
  induction fuel with
  | zero => simp [readValue, readItems, readFields]
  | succ fuel ih =>
    obtain ⟨hv, hi, hf⟩ := ih
    refine ⟨fun h => ?_, fun h => ?_, fun h => ?_⟩
    · cases readValue_succ.1 h with
      | string h => exact readString_spans h
      | emptyArray h => exact (Spans.neutral (by decide) _).trans (spans_of_skip h (by decide))
      | array _ h => exact (Spans.neutral (by decide) _).trans ((skip_spans _).trans (hi h))
      | emptyObject h => exact .braces (h ▸ skip_spans _)
      | object _ h => exact .braces ((skip_spans _).trans (hf h))
      | plain _ _ _ h => exact (readPlain_behind h).spans
    · cases readItems_succ.1 h with
      | last h₁ h₂ => exact (hv h₁).trans (spans_of_skip h₂ (by decide))
      | more h₁ h₂ h₃ =>
        exact (hv h₁).trans ((spans_of_skip h₂ (by decide)).trans ((skip_spans _).trans (hi h₃)))
    · -- a name, the colon and the value come first, whatever follows them
      have hmember {room : Nat} {s r r₁ r₂ : List Char} {n : LooseText} {v : Json}
          (hn : readString s = .ok (n, r)) (hc : skip r = ':' :: r₁)
          (h : readValue fuel room (skip r₁) = .ok (v, r₂)) : Spans ('"' :: s) r₂ :=
        (readString_spans hn).trans ((spans_of_skip hc (by decide)).trans ((skip_spans _).trans (hv h)))
      cases readFields_succ.1 h with
      | last h₁ h₂ h₃ h₄ => exact (hmember h₁ h₂ h₃).trans (h₄ ▸ skip_spans _)
      | more h₁ h₂ h₃ h₄ h₅ =>
        exact (hmember h₁ h₂ h₃).trans ((spans_of_skip h₄ (by decide)).trans ((skip_spans _).trans (hf h₅)))

end Reader

open Reader

theorem readAt_object {limit : Nat} {s r : List Char} {fs : Fields}
    (h : readAt limit s = .ok (.object fs, r)) :
    ∃ w, Balanced w ∧ s = '{' :: (w ++ '}' :: r) := by
  obtain ⟨fuel, hfuel⟩ : ∃ n, 2 * s.length + 2 = n + 1 := ⟨2 * s.length + 1, rfl⟩
  rw [readAt, hfuel] at h
  cases readValue_succ.1 h with
  | emptyObject h =>
    obtain ⟨w, hw, rfl⟩ := h ▸ skip_spans _
    exact ⟨w, hw, rfl⟩
  | object _ h =>
    obtain ⟨w, hw, rfl⟩ := (skip_spans _).trans ((read_spans fuel).2.2 h)
    exact ⟨w, hw, rfl⟩
  | plain _ _ _ h => exact absurd h readPlain_ne_object

/-- The text, from its first brace to its last, is one that the object is read from. -/
def Denotes (limit : Nat) (s : List Char) (fs : Fields) : Prop := readAt limit s = .ok (.object fs, [])

theorem Denotes.ofText {limit : Nat} {s : List Char} {fs : Fields} (h : Denotes limit s fs) :
    ofText limit s = .ok (.object fs) := by
  obtain ⟨w, -, rfl⟩ := readAt_object h
  have hs : skip ('{' :: (w ++ ['}'])) = '{' :: (w ++ ['}']) := List.dropWhile_cons_of_neg (by decide)
  exact ofText_eq_ok.2 ⟨[], by rw [hs, h], rfl⟩

end CodeAudit.Json
