import CodeAudit.Proofs.Json.Exact
import CodeAudit.Proofs.Json.Plain

/-!
Which characters of a written text stand inside its string literals. Quotes alone tell, once escapes
are passed over, and a reader that starts inside a literal takes the two sides for one another: what it
takes for literals are the stretches between the real ones.
-/
set_option autoImplicit false

namespace CodeAudit.Json

/-- Outside of every string literal, inside one, or behind a backslash in one. -/
inductive Place where
  | out | text | escape
  deriving DecidableEq, Repr

namespace Place

def step : Place → Char → Place
  | .out, c => if c = '"' then .text else .out
  | .text, c => if c = '"' then .out else if c = '\\' then .escape else .text
  | .escape, _ => .text

def run : Place → List Char → Place
  | p, [] => p
  | p, c :: s => run (p.step c) s

/-- Ticks and backslashes stand in literals only, and no bracket is escaped. -/
def Fits : Place → Char → Prop
  | .out, c => c ≠ '`' ∧ c ≠ '\\'
  | .text, _ => True
  | .escape, c => c ≠ '['

def Guarded : Place → List Char → Prop
  | _, [] => True
  | p, c :: s => p.Fits c ∧ Guarded (p.step c) s

theorem run_append (p : Place) (v w : List Char) : p.run (v ++ w) = (p.run v).run w := by
  induction v generalizing p with
  | nil => rfl
  | cons c v ih => exact ih (p.step c)

theorem guarded_append {p : Place} {v w : List Char} :
    p.Guarded (v ++ w) ↔ p.Guarded v ∧ (p.run v).Guarded w := by
  induction v generalizing p with
  | nil => simp [Guarded, run]
  | cons c v ih => simp [Guarded, run, ih, and_assoc]

theorem run_out {w : List Char} (h : ∀ c ∈ w, c ≠ '"' ∧ c ≠ '`' ∧ c ≠ '\\') :
    run .out w = .out ∧ Guarded .out w := by
  induction w with
  | nil => exact ⟨rfl, trivial⟩
  | cons c w ih =>
    obtain ⟨hc, hw⟩ := List.forall_mem_cons.1 h
    obtain ⟨hr, hg⟩ := ih hw
    simp [run, Guarded, step, Fits, hc, hr, hg]

end Place

open Place

/-- A stretch of a literal: it ends inside the literal and never leaves it. -/
structure Quiet (w : List Char) : Prop where
  run_eq : run .text w = .text
  guarded : Guarded .text w
  inside : ∀ a b, w = a ++ b → run .text a ≠ .out

namespace Quiet

theorem nil : Quiet [] := by
  refine ⟨rfl, trivial, fun a b h => ?_⟩
  rw [(List.append_eq_nil_iff.1 h.symm).1]
  simp [run]

theorem append {v w : List Char} (hv : Quiet v) (hw : Quiet w) : Quiet (v ++ w) := by
  refine ⟨?_, guarded_append.2 ⟨hv.guarded, ?_⟩, fun a b h => ?_⟩
  · rw [run_append, hv.run_eq, hw.run_eq]
  · rw [hv.run_eq]
    exact hw.guarded
  · obtain ⟨a', rfl, ha⟩ | ⟨b', hb, -⟩ := append_split h
    · rw [run_append, hv.run_eq]
      exact hw.inside a' b ha
    · exact hv.inside a b' hb

theorem flatMap {α : Type} {f : α → List Char} {xs : List α} (h : ∀ x ∈ xs, Quiet (f x)) :
    Quiet (xs.flatMap f) := by
  induction xs with
  | nil => exact nil
  | cons x xs ih => exact (h x (by simp)).append (ih fun y hy => h y (by simp [hy]))

theorem char {c : Char} (hq : c ≠ '"') (hb : c ≠ '\\') : Quiet [c] := by
  refine ⟨by simp [run, step, hq, hb], by simp [Guarded, Fits], fun a b h => ?_⟩
  cases a with
  | nil => simp [run]
  | cons d a =>
    obtain ⟨rfl, ht⟩ := List.cons.inj h
    rw [(List.append_eq_nil_iff.1 ht.symm).1]
    simp [run, step, hq, hb]

theorem escape {c : Char} (hc : c ≠ '[') : Quiet ['\\', c] := by
  refine ⟨by simp [run, step], by simp [Guarded, Fits, step, hc], fun a b h => ?_⟩
  match a with
  | [] => simp [run]
  | [d] =>
    obtain ⟨rfl, -⟩ := List.cons.inj h
    simp [run, step]
  | d :: e :: a =>
    obtain ⟨rfl, ht⟩ := List.cons.inj h
    obtain ⟨rfl, hs⟩ := List.cons.inj ht
    rw [(List.append_eq_nil_iff.1 hs.symm).1]
    simp [run, step]

theorem of_forall {w : List Char} (h : ∀ c ∈ w, c ≠ '"' ∧ c ≠ '\\') : Quiet w := by
  have hw : w.flatMap (fun c => [c]) = w := by simp
  rw [← hw]
  exact flatMap fun c hc => char (h c hc).1 (h c hc).2

end Quiet

theorem digitChar_isAlphanum {d : Nat} (h : d < 16) : d.digitChar.isAlphanum := by
  have hd : ∀ d, d < 16 → d.digitChar.isAlphanum := by decide
  exact hd d h

theorem hex_isAlphanum {u : Nat} (h : u < 0x10000) : ∀ c ∈ Text.Quoted.hex 4 u, c.isAlphanum := by
  have h₁ := digitChar_isAlphanum (d := u / 4096) (by omega)
  have h₂ := digitChar_isAlphanum (d := u / 256 % 16) (by omega)
  have h₃ := digitChar_isAlphanum (d := u / 16 % 16) (by omega)
  have h₄ := digitChar_isAlphanum (d := u % 16) (by omega)
  rw [Reader.hex_four h]
  simp [h₁, h₂, h₃, h₄]

theorem not_alphanum {c : Char} (h : c.isAlphanum) : c ≠ '"' ∧ c ≠ '\\' ∧ c ≠ '[' ∧ c ≠ '`' := by
  refine ⟨?_, ?_, ?_, ?_⟩ <;> rintro rfl <;> exact absurd h (by decide)

theorem quiet_writeUnit {u : Nat} (h : u < 0x10000) : Quiet (writeUnit u) :=
  (Quiet.escape (c := 'u') (by decide)).append <| .of_forall fun c hc =>
    have hn := not_alphanum (hex_isAlphanum h c hc)
    ⟨hn.1, hn.2.1⟩

theorem mem_writeUnit {u : Nat} (h : u < 0x10000) {c : Char} (hc : c ∈ writeUnit u) :
    c = '\\' ∨ c.isAlphanum := by
  obtain rfl | hc := List.mem_cons.1 hc
  · exact .inl rfl
  · obtain rfl | hc := List.mem_cons.1 hc
    · exact .inr (by decide)
    · exact .inr (hex_isAlphanum h c hc)

namespace Reader

theorem simpleEscape?_eq_some {c d : Char} (h : simpleEscape? c = some d) :
    c ≠ '[' ∧ (d = c ∧ 0x20 ≤ c.toNat ∨ c.isAlphanum) := by
  unfold simpleEscape? at h
  split at h <;> cases h <;> decide

theorem Spelled.quiet {c : Char} {w : List Char} (h : Spelled c w) : Quiet w := by
  cases h with
  | plain hq hb _ => exact .char hq hb
  | short _ h => exact .escape (simpleEscape?_eq_some h).1
  | unit hc => exact quiet_writeUnit hc
  | pair hn _ => exact (quiet_writeUnit (by omega)).append (quiet_writeUnit (by omega))

theorem Spelled.mem {c : Char} {w : List Char} (h : Spelled c w) {d : Char} (hd : d ∈ w) :
    c = d ∧ 0x20 ≤ d.toNat ∨ d = '\\' ∨ d.isAlphanum := by
  cases h with
  | plain _ _ hc =>
    obtain rfl := List.mem_singleton.1 hd
    exact .inl ⟨rfl, hc⟩
  | short _ h =>
    simp only [List.mem_cons, List.not_mem_nil, or_false] at hd
    obtain rfl | rfl := hd
    · exact .inr (.inl rfl)
    · obtain hc | hc := (simpleEscape?_eq_some h).2
      · exact .inl hc
      · exact .inr (.inr hc)
  | unit hc => exact .inr (mem_writeUnit hc hd)
  | pair hn _ =>
    obtain hd | hd := List.mem_append.1 hd
    · exact .inr (mem_writeUnit (by omega) hd)
    · exact .inr (mem_writeUnit (by omega) hd)

end Reader

theorem half_lt {ls : List Letter} (h : Letter.Apart ls) {u : Nat} (hu : .half u ∈ ls) :
    u < 0x10000 := by
  induction ls with
  | nil => cases hu
  | cons l ls ih =>
    cases l with
    | char c => exact ih h (by simpa using hu)
    | half v =>
      obtain ⟨hv, -, h⟩ := h
      obtain hu | hu := List.mem_cons.1 hu
      · cases hu
        simp only [Reader.isHigh, Reader.isLow, Bool.and_eq_true, decide_eq_true_eq] at hv
        omega
      · exact ih h hu

def plainText (t : LooseText) : List Char := t.letters.flatMap writeLetter

theorem quiet_plainText {t : LooseText} (h : t.Exact) : Quiet (plainText t) :=
  .flatMap fun l hl => by
    cases l with
    | char c => exact (Reader.spelled_writeChar c).quiet
    | half u => exact quiet_writeUnit (half_lt h.1 hl)

theorem mem_plainText {t : LooseText} (h : t.Exact) {c : Char} (hc : c ∈ plainText t) :
    .char c ∈ t.letters ∧ 0x20 ≤ c.toNat ∨ c = '\\' ∨ c.isAlphanum := by
  obtain ⟨l, hl, hc⟩ := List.mem_flatMap.1 hc
  cases l with
  | char d =>
    obtain ⟨rfl, h20⟩ | hc := (Reader.spelled_writeChar d).mem hc
    · exact .inl ⟨hl, h20⟩
    · exact .inr hc
  | half u => exact .inr (mem_writeUnit (half_lt h.1 hl) hc)

end CodeAudit.Json
