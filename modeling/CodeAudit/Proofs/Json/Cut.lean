import CodeAudit.Proofs.Json.Plain
import CodeAudit.Proofs.Json.RoundTrip

/-!
Cut-off texts. Where the written form of a value that is not nested too deeply ends too early nothing is
read, unless the value was an integer: what is left of its digits is an integer too.
-/
set_option autoImplicit false

namespace CodeAudit.Json

namespace Reader

theorem skip_of_head {p : List Char} (h : ∀ c ∈ p.head?, isSpace c = false) : skip p = p := by
  cases p with
  | nil => rfl
  | cons c p => exact skip_cons (h c rfl) p

def Begins (w : List Char) : Prop := ∃ c t, w = c :: t ∧ isSpace c = false

theorem begins_render {v : Json} (h : v.Exact) (k : List Char) : Begins (render .plain v ++ k) := by
  obtain ⟨c, t, ht, hc, -⟩ := write_head (l := .plain) h.legible 0
  exact ⟨c, t ++ k, by rw [render, ht, List.cons_append], hc⟩

theorem begins_member (n : LooseText) (v : Json) (k : List Char) : Begins (plainMember n v ++ k) := by
  rw [plainMember, writeString_eq]
  exact ⟨'"', _, rfl, rfl⟩

theorem skip_of_begins {w p q : List Char} (hw : Begins w) (h : w = p ++ q) : skip p = p := by
  obtain ⟨c, t, rfl, hc⟩ := hw
  refine skip_of_head fun d hd => ?_
  cases p with
  | nil => cases hd
  | cons e p =>
    cases hd
    rwa [← (List.cons.inj h).1]

theorem skip_gap {w p q : List Char} (hw : Begins w) (h : ' ' :: w = p ++ q) (hq : q ≠ []) :
    ∃ q', w = skip p ++ q' ∧ q' ≠ [] ∧ (skip p).length ≤ p.length := by
  cases p with
  | nil =>
    obtain ⟨c, t, rfl, -⟩ := hw
    exact ⟨c :: t, rfl, by simp, Nat.le_refl _⟩
  | cons d p =>
    obtain ⟨rfl, ht⟩ := List.cons.inj h
    have hs : skip (' ' :: p) = p := skip_of_begins hw ht
    exact ⟨q, hs.symm ▸ ht, hq, by simp [hs]⟩

theorem ends_of_plainItems {xs : List Json} {p q : List Char} (h : plainItems xs = p ++ q) :
    Ends p := by
  cases p with
  | nil => exact .nil
  | cons d p =>
    cases xs with
    | nil =>
      obtain ⟨rfl, -⟩ := List.cons.inj h
      exact .cons p (by decide)
    | cons x xs =>
      rw [plainItems_cons] at h
      obtain ⟨rfl, -⟩ := List.cons.inj h
      exact .cons p (by decide)

theorem ends_of_plainFields {fs : Fields} {p q : List Char} (h : plainFields fs = p ++ q) :
    Ends p := by
  cases p with
  | nil => exact .nil
  | cons d p =>
    cases fs with
    | nil =>
      obtain ⟨rfl, -⟩ := List.cons.inj h
      exact .cons p (by decide)
    | cons x fs =>
      rw [plainFields_cons] at h
      obtain ⟨rfl, -⟩ := List.cons.inj h
      exact .cons p (by decide)

theorem readValue_plain {v : Json} (h : v.Exact) {k : List Char} (hk : Ends k) {fuel room : Nat}
    (hm : v.nesting ≤ room) (hf : 2 * (render .plain v ++ k).length ≤ fuel) :
    readValue fuel room (render .plain v ++ k) = .ok (v, k) :=
  readValue_write Layout.plain_blank v 0 fuel room k h.legible hm hk (by
    rw [List.length_append, render] at hf
    omega)

section Refused

variable {fuel room : Nat} {s r r₁ : List Char} {v : Json} {n : LooseText} {seen : Fields}

theorem readItems_of_value (h : readValue fuel room s = .error .malformed) :
    readItems (fuel + 1) room s = .error .malformed := by
  simp [readItems, h, bind, Except.bind]

theorem readItems_of_end (h : readValue fuel room s = .ok (v, [])) :
    readItems (fuel + 1) room s = .error .malformed := by
  simp only [readItems, h, bind, Except.bind]
  rfl

theorem readItems_of_comma (h : readValue fuel room s = .ok (v, ',' :: r))
    (hi : readItems fuel room (skip r) = .error .malformed) :
    readItems (fuel + 1) room s = .error .malformed := by
  have hc : skip (',' :: r) = ',' :: r := skip_cons rfl r
  simp [readItems, h, hc, hi, bind, Except.bind]

theorem readFields_of_name (h : readString s = .error .malformed) :
    readFields (fuel + 1) room seen ('"' :: s) = .error .malformed := by
  simp [readFields, h, bind, Except.bind]

theorem readFields_of_nameEnd (h : readString s = .ok (n, [])) :
    readFields (fuel + 1) room seen ('"' :: s) = .error .malformed := by
  simp only [readFields, h, bind, Except.bind]
  rfl

theorem readFields_of_value (hn : readString s = .ok (n, r)) (hc : skip r = ':' :: r₁)
    (h : readValue fuel room (skip r₁) = .error .malformed) :
    readFields (fuel + 1) room seen ('"' :: s) = .error .malformed := by
  simp [readFields, hn, hc, h, bind, Except.bind]

theorem readFields_of_end (hn : readString s = .ok (n, r)) (hc : skip r = ':' :: r₁)
    (h : readValue fuel room (skip r₁) = .ok (v, [])) :
    readFields (fuel + 1) room seen ('"' :: s) = .error .malformed := by
  simp only [readFields, hn, hc, h, bind, Except.bind]
  rfl

theorem readFields_of_comma {t : List Char} (hn : readString s = .ok (n, r))
    (hc : skip r = ':' :: r₁) (h : readValue fuel room (skip r₁) = .ok (v, ',' :: t))
    (hf : readFields fuel room (seen.put n v) (skip t) = .error .malformed) :
    readFields (fuel + 1) room seen ('"' :: s) = .error .malformed := by
  have hs : skip (',' :: t) = ',' :: t := skip_cons rfl t
  simp [readFields, hn, hc, h, hs, hf, bind, Except.bind]

end Refused

/-- What reading gives where the written form of the value breaks off. -/
def CutShort (v : Json) : Prop := ∀ p q fuel room, render .plain v = p ++ q → q ≠ [] →
  2 * p.length ≤ fuel → v.nesting ≤ room →
  readValue fuel room p = .error .malformed ∨ ∃ i, readValue fuel room p = .ok (.int i, [])

theorem CutShort.of_cons {v : Json} (h : ∀ c p q fuel room, render .plain v = c :: p ++ q → q ≠ [] →
    2 * p.length ≤ fuel → v.nesting ≤ room → readValue (fuel + 2) room (c :: p) = .error .malformed ∨
      ∃ i, readValue (fuel + 2) room (c :: p) = .ok (.int i, [])) : CutShort v := by
  intro p q fuel room hp hq hf hm
  cases p with
  | nil => exact .inl (readValue_nil fuel room)
  | cons c p =>
    rw [List.length_cons] at hf
    obtain ⟨fuel, rfl⟩ : ∃ n, fuel = n + 2 := ⟨fuel - 2, by omega⟩
    exact h c p q fuel room hp hq (by omega) hm

/-- The same for the items behind one that was read. -/
def CutItems (xs : List Json) : Prop := ∀ p q fuel room s x, plainItems xs = p ++ q → q ≠ [] →
  2 * p.length ≤ fuel → nestingItems xs ≤ room → readValue fuel room s = .ok (x, p) →
  readItems (fuel + 1) room s = .error .malformed

def CutFields (fs : Fields) : Prop := ∀ p q fuel room seen s n v r r₁, plainFields fs = p ++ q →
  q ≠ [] → 2 * p.length ≤ fuel → nestingFields fs ≤ room → readString s = .ok (n, r) →
  skip r = ':' :: r₁ → readValue fuel room (skip r₁) = .ok (v, p) →
  readFields (fuel + 1) room seen ('"' :: s) = .error .malformed

theorem readItems_cut {x : Json} {xs : List Json} (hx : x.Exact) (hc : CutShort x)
    (hi : CutItems xs) {p q : List Char} {fuel room : Nat}
    (h : render .plain x ++ plainItems xs = p ++ q) (hq : q ≠ []) (hf : 2 * p.length ≤ fuel)
    (hm : nestingItems (x :: xs) ≤ room) : readItems (fuel + 1) room p = .error .malformed := by
  obtain ⟨hmx, hmxs⟩ := Nat.max_le.1 hm
  obtain ⟨a, rfl, ha⟩ | ⟨b, hp, hb⟩ := append_split h
  · have hr := readValue_plain hx (ends_of_plainItems ha) hmx hf
    rw [List.length_append] at hf
    exact hi a q fuel room _ x ha hq (by omega) hmxs hr
  · obtain hr | ⟨i, hr⟩ := hc p b fuel room hp hb hf hmx
    · exact readItems_of_value hr
    · exact readItems_of_end hr

theorem readString_cut {t : LooseText} (ht : t.Exact) {p q : List Char}
    (h : t.letters.flatMap writeLetter ++ ['"'] = p ++ q) (hq : q ≠ []) :
    readString p = .error .malformed := by
  cases hr : readString p with
  | error e =>
    cases e with
    | malformed => rfl
    | excess e => exact absurd hr (readString_ne_excess p e)
  | ok x =>
    obtain ⟨t', r⟩ := x
    have ha := readString_append hr q
    rw [← h, readString_write ht] at ha
    simp only [Except.ok.injEq, Prod.mk.injEq] at ha
    exact absurd (List.append_eq_nil_iff.1 ha.2.symm).2 hq

theorem readFields_cut {n : LooseText} {v : Json} {fs : Fields} (hn : n.Exact) (hv : v.Exact)
    (hc : CutShort v) (hi : CutFields fs) {p q : List Char} {fuel room : Nat} (seen : Fields)
    (h : plainMember n v ++ plainFields fs = p ++ q) (hq : q ≠ []) (hf : 2 * p.length ≤ fuel)
    (hm : nestingFields ((n, v) :: fs) ≤ room) :
    readFields (fuel + 1) room seen p = .error .malformed := by
  obtain ⟨hmv, hmfs⟩ := Nat.max_le.1 hm
  cases p with
  | nil => exact readFields_nil (fuel + 1) room seen
  | cons d p =>
    have hs : '"' :: (n.letters.flatMap writeLetter ++ ['"'] ++
        ':' :: ' ' :: (render .plain v ++ plainFields fs)) = d :: p ++ q := by
      simpa [plainMember, writeString_eq] using h
    obtain ⟨rfl, ht⟩ := List.cons.inj hs
    obtain ⟨a, rfl, ha⟩ | ⟨b, hp, hb⟩ := append_split ht
    · have hr : readString (n.letters.flatMap writeLetter ++ ['"'] ++ a) = .ok (n, a) := by
        rw [List.append_assoc]
        exact readString_write hn a
      cases a with
      | nil => exact readFields_of_nameEnd hr
      | cons e a =>
        obtain ⟨rfl, hw⟩ := List.cons.inj ha
        have hk : skip (':' :: a) = ':' :: a := skip_cons rfl a
        obtain ⟨q', hg, hq', hl⟩ := skip_gap (begins_render hv _) hw hq
        simp only [List.length_cons, List.length_append] at hf
        obtain ⟨a', hp, ha'⟩ | ⟨b, hp, hb⟩ := append_split hg
        · have hf' : 2 * (render .plain v ++ a').length ≤ fuel := by
            rw [← hp]
            omega
          have hr' := readValue_plain hv (ends_of_plainFields ha') hmv hf'
          rw [List.length_append] at hf'
          exact hi a' q' fuel room seen _ n v _ a ha' hq' (by omega) hmfs hr hk (hp ▸ hr')
        · obtain hr' | ⟨i, hr'⟩ := hc _ b fuel room hp hb (by omega) hmv
          · exact readFields_of_value hr hk hr'
          · exact readFields_of_end hr hk hr'
    · exact readFields_of_name (readString_cut hn hp hb)

theorem readValue_of_plain {fuel room : Nat} {p : List Char}
    (h : ∀ c ∈ p.head?, c ≠ '"' ∧ c ≠ '[' ∧ c ≠ '{') : readValue (fuel + 1) room p = readPlain p := by
  unfold readValue
  split <;> simp_all

theorem nil_of_single {c : Char} {p q : List Char} (h : [c] = p ++ q) (hq : q ≠ []) : p = [] := by
  have hl := congrArg List.length h
  have := List.length_pos_iff.2 hq
  simp only [List.length_append, List.length_singleton] at hl
  exact List.length_eq_zero_iff.1 (by omega)

theorem readValue_of_word {w p q : List Char}
    (hw : w = ['n', 'u', 'l', 'l'] ∨ w = ['t', 'r', 'u', 'e'] ∨ w = ['f', 'a', 'l', 's', 'e'])
    (h : w = p ++ q) (hq : q ≠ []) (fuel room : Nat) : readValue fuel room p = .error .malformed := by
  have hp : p <+: w := ⟨q, h.symm⟩
  have hn : p ≠ w := fun hp => hq (by simpa [hp] using h)
  cases fuel with
  | zero => rfl
  | succ fuel =>
    rcases hw with rfl | rfl | rfl <;>
      simp only [List.prefix_cons_iff, List.prefix_nil] at hp
    · obtain rfl | ⟨_, rfl, rfl | ⟨_, rfl, rfl | ⟨_, rfl, rfl | ⟨_, rfl, rfl⟩⟩⟩⟩ := hp
      all_goals first | rfl | exact absurd rfl hn
    · obtain rfl | ⟨_, rfl, rfl | ⟨_, rfl, rfl | ⟨_, rfl, rfl | ⟨_, rfl, rfl⟩⟩⟩⟩ := hp
      all_goals first | rfl | exact absurd rfl hn
    · obtain rfl | ⟨_, rfl, rfl | ⟨_, rfl, rfl | ⟨_, rfl, rfl | ⟨_, rfl, rfl | ⟨_, rfl, rfl⟩⟩⟩⟩⟩ :=
        hp
      all_goals first | rfl | exact absurd rfl hn

theorem Numeral.of_append {p q : List Char} (h : Numeral (p ++ q)) (hp : p ≠ []) : Numeral p := by
  cases p with
  | nil => exact absurd rfl hp
  | cons c p =>
    obtain h | ⟨h0, -, hd⟩ := h
    · obtain ⟨rfl, ht⟩ := List.cons.inj h
      rw [(List.append_eq_nil_iff.1 ht).1]
      exact .inl rfl
    · exact .inr ⟨h0, by simp, fun d hm => hd d (List.mem_append_left q hm)⟩

/-- An integer that breaks off is an integer, unless nothing of it or the sign alone is left. -/
theorem readPlain_digits {i : Int} (hi : (Nat.toDigits 10 i.natAbs).length ≤ maxDigits)
    {p q : List Char} (h : (toString i).toList = p ++ q) :
    readPlain p = .error .malformed ∨ ∃ j, readPlain p = .ok (.int j, []) := by
  have hd (neg : Bool) {p : List Char} (h : Nat.toDigits 10 i.natAbs = p ++ q) (hp : p ≠ []) :
      ∃ j, readPlain ((if neg then ['-'] else []) ++ p) = .ok (.int j, []) := by
    have hl : p.length ≤ maxDigits := by
      rw [h, List.length_append] at hi
      omega
    have hr := readPlain_numeral neg ((h ▸ toDigits_numeral i.natAbs).of_append hp) hl .nil
    exact ⟨_, by simpa using hr⟩
  rw [toList_int] at h
  split at h
  · cases p with
    | nil => exact .inl rfl
    | cons c p =>
      obtain ⟨rfl, ht⟩ := List.cons.inj h
      by_cases hp : p = []
      · subst hp
        exact .inl rfl
      · exact .inr (hd true ht hp)
  · by_cases hp : p = []
    · subst hp
      exact .inl rfl
    · exact .inr (hd false h hp)

mutual

theorem cutShort : ∀ (v : Json), v.Exact → CutShort v
  | .null, _ => fun _ _ fuel room h hq _ _ => .inl (readValue_of_word (.inl rfl) h hq fuel room)
  | .bool true, _ => fun _ _ fuel room h hq _ _ => .inl (readValue_of_word (.inr (.inl rfl)) h hq fuel room)
  | .bool false, _ => fun _ _ fuel room h hq _ _ => .inl (readValue_of_word (.inr (.inr rfl)) h hq fuel room)
  | .int i, hi => .of_cons fun c p q fuel room h _ _ _ => by
    have hr := readPlain_int hi .nil
    rw [List.append_nil] at hr
    obtain ⟨d, t, ht, hd⟩ := readPlain_begins hr
    rw [readValue_of_plain fun e he => ?_]
    · exact readPlain_digits hi h
    · rw [render, write, ht] at h
      obtain ⟨rfl, -⟩ := List.cons.inj h
      cases he
      refine ⟨?_, ?_, ?_⟩ <;> rintro rfl <;> exact absurd hd (by decide)
  | .float _, h => h.elim
  | .string t, ht => .of_cons fun c p q fuel room h hq _ _ => .inl <| by
    rw [render, write, writeString_eq] at h
    obtain ⟨rfl, h'⟩ := List.cons.inj h
    simp [readValue, readString_cut ht h' hq, Except.map]
  | .array [], _ => .of_cons fun c p q fuel room h hq _ hm => .inl <| by
    obtain ⟨room, rfl, -⟩ := exists_fuel hm
    obtain ⟨rfl, h'⟩ := List.cons.inj h
    obtain rfl := nil_of_single h' hq
    exact readValue_of_items (by simp [skip]) (readItems_nil (fuel + 1) room)
  | .array (x :: xs), hx => .of_cons fun c p q fuel room h hq hf hm => .inl <| by
    obtain ⟨room, rfl, hle⟩ := exists_fuel hm
    rw [render_array_cons] at h
    obtain ⟨rfl, ht⟩ := List.cons.inj h
    have hi := readItems_cut hx.1 (cutShort x hx.1) (cutItems xs hx.2) ht hq hf hle
    have hs : skip p = p := skip_of_begins (begins_render hx.1 _) ht
    refine readValue_of_items (fun r hr => ?_) (hs.symm ▸ hi)
    obtain ⟨c, t, hw, -, hc, -⟩ := write_head (l := .plain) hx.1.legible 0
    rw [← hs, hr, render, hw] at ht
    exact hc (List.cons.inj ht).1
  | .object [], _ => .of_cons fun c p q fuel room h hq _ hm => .inl <| by
    obtain ⟨room, rfl, -⟩ := exists_fuel hm
    obtain ⟨rfl, h'⟩ := List.cons.inj h
    obtain rfl := nil_of_single h' hq
    exact readValue_of_fields (by simp [skip]) (readFields_nil (fuel + 1) room [])
  | .object ((n, v) :: fs), hx => .of_cons fun c p q fuel room h hq hf hm => .inl <| by
    obtain ⟨room, rfl, hle⟩ := exists_fuel hm
    rw [render_object] at h
    obtain ⟨rfl, ht⟩ := List.cons.inj h
    obtain ⟨-, hn, hv, hfs⟩ := hx
    have hi := readFields_cut hn hv (cutShort v hv) (cutFields fs hfs) [] ht hq hf hle
    have hs : skip p = p := skip_of_begins (begins_member n v _) ht
    refine readValue_of_fields (fun r hr => ?_) (hs.symm ▸ hi)
    rw [← hs, hr, plainMember, writeString_eq] at ht
    cases (List.cons.inj ht).1

theorem cutItems : ∀ (xs : List Json), ExactItems xs → CutItems xs
  | [], _, p, q, fuel, room, s, x, h, hq, hf, _, hr => by
    obtain rfl := nil_of_single h hq
    exact readItems_of_end hr
  | y :: ys, hx, p, q, fuel, room, s, x, h, hq, hf, hm, hr => by
    cases p with
    | nil => exact readItems_of_end hr
    | cons c p =>
      rw [plainItems_cons] at h
      obtain ⟨rfl, ht⟩ := List.cons.inj h
      obtain ⟨q', hg, hq', hl⟩ := skip_gap (begins_render hx.1 _) ht hq
      rw [List.length_cons] at hf
      obtain ⟨fuel, rfl⟩ : ∃ n, fuel = n + 1 := ⟨fuel - 1, by omega⟩
      have hi := readItems_cut hx.1 (cutShort y hx.1) (cutItems ys hx.2) hg hq'
        (by omega : 2 * (skip p).length ≤ fuel) hm
      exact readItems_of_comma hr hi

theorem cutFields : ∀ (fs : Fields), ExactFields fs → CutFields fs
  | [], _, p, q, fuel, room, seen, s, n, v, r, r₁, h, hq, hf, _, hn, hc, hr => by
    obtain rfl := nil_of_single h hq
    exact readFields_of_end hn hc hr
  | (m, w) :: fs, hx, p, q, fuel, room, seen, s, n, v, r, r₁, h, hq, hf, hroom, hn, hc, hr => by
    cases p with
    | nil => exact readFields_of_end hn hc hr
    | cons c p =>
      rw [plainFields_cons] at h
      obtain ⟨rfl, ht⟩ := List.cons.inj h
      obtain ⟨hm, hw, hfs⟩ := hx
      obtain ⟨q', hg, hq', hl⟩ := skip_gap (begins_member m w _) ht hq
      rw [List.length_cons] at hf
      obtain ⟨fuel, rfl⟩ : ∃ n, fuel = n + 1 := ⟨fuel - 1, by omega⟩
      have hi := readFields_cut hm hw (cutShort w hw) (cutFields fs hfs) (seen.put n v)
        hg hq' (by omega : 2 * (skip p).length ≤ fuel) hroom
      exact readFields_of_comma hn hc hr hi

end

end Reader

theorem readAt_cut {xs : List Json} (h : (array xs).Exact) {limit : Nat} (hm : (array xs).nesting ≤ limit)
    {p q : List Char} (hp : render .plain (.array xs) = p ++ q) (hq : q ≠ []) :
    readAt limit p = .error .malformed := by
  obtain hr | ⟨i, hr⟩ := Reader.cutShort _ h p q (2 * p.length + 2) limit hp hq (by omega) hm
  · exact hr
  · cases p with
    | nil => cases hr
    | cons c p =>
      have hc : '[' = c := by
        cases xs with
        | nil => exact (List.cons.inj hp).1
        | cons x xs =>
          rw [render_array_cons] at hp
          exact (List.cons.inj hp).1
      subst hc
      cases Reader.readValue_succ.1 hr with
      | plain _ hb => exact absurd rfl hb

end CodeAudit.Json
