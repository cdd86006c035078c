import CodeAudit.Proofs.Json.Nested

/-!
Reading from inside a literal. What is then taken for texts lies between the real literals, where no
tick stands.
-/
set_option autoImplicit false

namespace CodeAudit

theorem LooseText.letters_ofLetters (ls : List Letter) : (ofLetters ls).letters = ls := by
  unfold ofLetters
  split
  · rename_i cs h
    rw [letters, String.toList_ofList]
    induction ls generalizing cs with
    | nil =>
      cases h
      rfl
    | cons l ls ih =>
      simp only [List.mapM_cons, Option.bind_eq_bind, Option.bind_eq_some_iff, Option.pure_def,
        Option.some.injEq] at h
      obtain ⟨c, hc, cs', hcs, rfl⟩ := h
      cases l with
      | char d =>
        cases hc
        rw [List.map_cons, ih cs' hcs]
      | half u => cases hc
  · rfl

namespace Json

open Place

def Tickless (v : Json) : Prop := ∀ t, TextOf t v → .char '`' ∉ t.letters

def TicklessField (f : LooseText × Json) : Prop := .char '`' ∉ f.1.letters ∧ f.2.Tickless

theorem Tickless.array {xs : List Json} (h : ∀ x ∈ xs, x.Tickless) : (Json.array xs).Tickless := by
  intro t ht
  cases ht with
  | item hv h' => exact h _ hv t h'

theorem Tickless.object {fs : Fields} (h : ∀ f ∈ fs, TicklessField f) : (Json.object fs).Tickless := by
  intro t ht
  cases ht with
  | name hf => exact (h _ hf).1
  | value hf h' => exact (h _ hf).2 t h'

namespace Reader

/-- From the end of a real literal to the start of the next one. -/
theorem string?_out {fuel : Nat} {s r : List Char} {ls : List Letter}
    (h : string? fuel s = some (ls, r)) (hs : Guarded .out s) :
    .char '`' ∉ ls ∧ Guarded .text r := by
  induction fuel generalizing s ls with
  | zero => cases h
  | succ fuel ih =>
    rw [string?] at h
    split at h
    · cases h
    · rename_i hp
      cases h
      cases piece?_iff.1 hp
      exact ⟨by simp, hs.2⟩
    · rename_i l r₁ hp
      obtain ⟨⟨ls, r⟩, ht, hl⟩ := Option.map_eq_some_iff.1 h
      cases hl
      cases piece?_iff.1 hp with
      | unit _ | escape => exact absurd rfl hs.1.2
      | char _ hq =>
        have hg := hs.2
        rw [step, if_neg hq] at hg
        obtain ⟨hn, hr⟩ := ih ht hg
        exact ⟨by simpa [hn] using Ne.symm hs.1.1, hr⟩

theorem readString_out {s r : List Char} {t : LooseText} (h : readString s = .ok (t, r))
    (hs : Guarded .text ('"' :: s)) : .char '`' ∉ t.letters ∧ Guarded .text r := by
  obtain ⟨ls, hl, rfl⟩ := readString_eq_ok.1 h
  rw [LooseText.letters_ofLetters]
  exact string?_out hl hs.2

/-- A character that opens neither a string nor an escape. -/
def isBare (c : Char) : Bool := c != '"' && c != '\\'

theorem guarded_of_bare {w r : List Char} (hw : ∀ c ∈ w, isBare c) (hs : Guarded .text (w ++ r)) :
    Guarded .text r := by
  have hr : run .text w = .text := by
    refine (Quiet.of_forall fun c hc => ?_).run_eq
    simpa [isBare] using hw c hc
  exact hr ▸ (guarded_append.1 hs).2

theorem Behind.guarded {s r : List Char} (h : Behind s r) (hs : Guarded .text s) :
    Guarded .text r := by
  obtain ⟨w, rfl, hw⟩ := h
  refine guarded_of_bare (fun c hc => ?_) hs
  have hq := ne_of_isAtom (hw c hc) (show isAtom '"' = false by decide)
  have hb := ne_of_isAtom (hw c hc) (show isAtom '\\' = false by decide)
  simp [isBare, hq, hb]

theorem guarded_skip {s : List Char} (hs : Guarded .text s) : Guarded .text (skip s) := by
  rw [← List.takeWhile_append_dropWhile (p := isSpace) (l := s)] at hs
  refine guarded_of_bare (fun c hc => ?_) hs
  have hc := List.mem_takeWhile_imp hc
  simp only [isSpace, Bool.or_eq_true, decide_eq_true_eq] at hc
  obtain ((rfl | rfl) | rfl) | rfl := hc <;> rfl

theorem guarded_tail {s r : List Char} {c : Char} (hc : isBare c) (h : s = c :: r)
    (hs : Guarded .text s) : Guarded .text r := by
  subst h
  exact guarded_of_bare (w := [c]) (by simpa using hc) hs

end Reader

open Reader

theorem readPlain_tickless {s r : List Char} {v : Json} (h : readPlain s = .ok (v, r)) :
    v.Tickless := by
  obtain ⟨hn, hs⟩ := readPlain_scalar h
  intro t ht
  cases ht with
  | self => exact absurd rfl (hs t)
  | item | name | value => simp [nesting] at hn

/-- Nothing that is read from inside a literal on holds a tick in its texts. -/
theorem read_tickless (fuel : Nat) :
    (∀ {room s v r}, readValue fuel room s = .ok (v, r) → Guarded .text s → v.Tickless ∧ Guarded .text r) ∧
    (∀ {room s xs r}, readItems fuel room s = .ok (xs, r) → Guarded .text s →
      (∀ x ∈ xs, x.Tickless) ∧ Guarded .text r) ∧
    (∀ {room seen s fs r}, readFields fuel room seen s = .ok (fs, r) → Guarded .text s →
      (∀ f ∈ seen, TicklessField f) → (∀ f ∈ fs, TicklessField f) ∧ Guarded .text r) := by
  induction fuel with
  | zero => simp [readValue, readItems, readFields]
  | succ fuel ih =>
    obtain ⟨hv, hi, hf⟩ := ih
    refine ⟨fun h hs => ?_, fun h hs => ?_, fun h hs hseen => ?_⟩
    · cases readValue_succ.1 h with
      | string h =>
        obtain ⟨ht, hr⟩ := readString_out h hs
        refine ⟨fun t' h' => ?_, hr⟩
        cases h'
        exact ht
      | emptyArray h =>
        have hg := guarded_skip (guarded_tail rfl rfl hs)
        exact ⟨.array (by simp), guarded_tail rfl h hg⟩
      | array _ h =>
        obtain ⟨hx, hr⟩ := hi h (guarded_skip (guarded_tail rfl rfl hs))
        exact ⟨.array hx, hr⟩
      | emptyObject h =>
        have hg := guarded_skip (guarded_tail rfl rfl hs)
        exact ⟨.object (by simp), guarded_tail rfl h hg⟩
      | object _ h =>
        obtain ⟨hx, hr⟩ := hf h (guarded_skip (guarded_tail rfl rfl hs)) (by simp)
        exact ⟨.object hx, hr⟩
      | plain _ _ _ h => exact ⟨readPlain_tickless h, (readPlain_behind h).guarded hs⟩
    · cases readItems_succ.1 h with
      | last h₁ h₂ =>
        obtain ⟨hx, hr⟩ := hv h₁ hs
        exact ⟨by simpa using hx, guarded_tail rfl h₂ (guarded_skip hr)⟩
      | more h₁ h₂ h₃ =>
        obtain ⟨hx, hr⟩ := hv h₁ hs
        obtain ⟨hxs, hr'⟩ := hi h₃ (guarded_skip (guarded_tail rfl h₂ (guarded_skip hr)))
        exact ⟨List.forall_mem_cons.2 ⟨hx, hxs⟩, hr'⟩
    · have hput {n : LooseText} {v : Json} {seen : Fields} (hn : .char '`' ∉ n.letters)
          (hv : v.Tickless) (hs : ∀ f ∈ seen, TicklessField f) :
          ∀ f ∈ seen.put n v, TicklessField f := by
        intro f hm
        obtain hm | rfl := Fields.mem_put hm
        · exact hs f hm
        · exact ⟨hn, hv⟩
      cases readFields_succ.1 h with
      | last h₁ h₂ h₃ h₄ =>
        obtain ⟨hn, hr⟩ := readString_out h₁ hs
        obtain ⟨hx, hr'⟩ := hv h₃ (guarded_skip (guarded_tail rfl h₂ (guarded_skip hr)))
        exact ⟨hput hn hx hseen, guarded_tail rfl h₄ (guarded_skip hr')⟩
      | more h₁ h₂ h₃ h₄ h₅ =>
        obtain ⟨hn, hr⟩ := readString_out h₁ hs
        obtain ⟨hx, hr'⟩ := hv h₃ (guarded_skip (guarded_tail rfl h₂ (guarded_skip hr)))
        exact hf h₅ (guarded_skip (guarded_tail rfl h₄ (guarded_skip hr'))) (hput hn hx hseen)

end Json
end CodeAudit
