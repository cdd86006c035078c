import CodeAudit.Proofs.Json.Double
import CodeAudit.Proofs.Json.Nesting

/-!
Writing and reading back. Every legible value that is not nested too deeply is read back from its written
form, whatever layout of blanks it was written in and whatever stands behind it, save more of a number.
-/
set_option autoImplicit false

namespace CodeAudit

namespace Fields

theorem put_append {n : LooseText} (v : Json) {seen : Fields} (h : n ∉ seen.map Prod.fst) :
    seen.put n v = seen ++ [(n, v)] := by
  induction seen with
  | nil => rfl
  | cons x seen ih =>
    obtain ⟨m, w⟩ := x
    simp only [List.map_cons, List.mem_cons, not_or] at h
    simp [put, Ne.symm h.1, ih h.2]

theorem not_mem_of_nodup {n : LooseText} {v : Json} {seen fs : Fields}
    (h : ((seen ++ (n, v) :: fs).map Prod.fst).Nodup) : n ∉ seen.map Prod.fst := by
  rw [List.map_append, List.nodup_append] at h
  exact fun hn => h.2.2 n hn n (by simp) rfl

end Fields

namespace Json

def Layout.Blank (l : Layout) : Prop :=
  (∀ c ∈ l.comma, Reader.isSpace c) ∧ ∀ c ∈ l.colon, Reader.isSpace c

theorem Layout.plain_blank : Layout.plain.Blank :=
  ⟨List.all_eq_true.1 rfl, List.all_eq_true.1 rfl⟩

mutual

/-- A value that a text can stand for: an exact one, or one with doubles in it. -/
def Legible : Json → Prop
  | .null | .bool _ => True
  | .int i => (Nat.toDigits 10 i.natAbs).length ≤ maxDigits
  | .float x => x.Valid
  | .string t => t.Exact
  | .array xs => LegibleItems xs
  | .object fs => (fs.map Prod.fst).Nodup ∧ LegibleFields fs

def LegibleItems : List Json → Prop
  | [] => True
  | x :: xs => Legible x ∧ LegibleItems xs

def LegibleFields : List (LooseText × Json) → Prop
  | [] => True
  | (n, v) :: fs => n.Exact ∧ Legible v ∧ LegibleFields fs

end

mutual

theorem Exact.legible : ∀ {v : Json}, v.Exact → v.Legible
  | .null, _ | .bool _, _ => trivial
  | .int _, h | .string _, h => h
  | .float _, h => h.elim
  | .array xs, h => ExactItems.legible xs h
  | .object fs, h => ⟨h.1, ExactFields.legible fs h.2⟩

theorem ExactItems.legible : ∀ xs : List Json, ExactItems xs → LegibleItems xs
  | [], _ => trivial
  | _ :: xs, h => ⟨h.1.legible, ExactItems.legible xs h.2⟩

theorem ExactFields.legible : ∀ fs : List (LooseText × Json), ExactFields fs → LegibleFields fs
  | [], _ => trivial
  | _ :: fs, h => ⟨h.1, h.2.1.legible, ExactFields.legible fs h.2.2⟩

end

theorem legibleItems_iff {xs : List Json} : LegibleItems xs ↔ ∀ x ∈ xs, Legible x := by
  induction xs with
  | nil => simp [LegibleItems]
  | cons x xs ih => simp [LegibleItems, ih]

namespace Reader

theorem skip_blank {w : List Char} (h : ∀ c ∈ w, isSpace c) (k : List Char) :
    skip (w ++ k) = skip k := List.dropWhile_append_of_pos h

theorem skip_cons {c : Char} (h : isSpace c = false) (k : List Char) : skip (c :: k) = c :: k := by
  simp [skip, h]

theorem skip_lineBreak (l : Layout) (depth : Nat) (k : List Char) :
    skip (l.lineBreak depth ++ k) = skip k := by
  refine skip_blank (fun c hc => ?_) k
  unfold Layout.lineBreak at hc
  split at hc
  · cases hc
  · obtain rfl | hc := List.mem_cons.1 hc
    · rfl
    · rw [List.eq_of_mem_replicate hc]
      rfl

variable {l : Layout}

theorem readPlain_begins {s r : List Char} {v : Json} (h : readPlain s = .ok (v, r)) :
    ∃ c t, s = c :: t ∧ (c = '-' ∨ c.isAlphanum) := by
  have hn {neg : Bool} {s : List Char} (h : readNumber neg s = .ok (v, r)) :
      ∃ c t, s = c :: t ∧ (c = '-' ∨ c.isAlphanum) := by
    obtain ⟨c, t, rfl, hc⟩ := readNumber_head h
    exact ⟨c, t, rfl, .inr (by simp [Char.isAlphanum, hc])⟩
  unfold readPlain at h
  split at h
  · rename_i x hw
    cases h
    obtain ⟨w, hm, rfl⟩ := word?_eq_some.1 hw
    have hb : words.all fun x => x.1.head?.any fun c => c = '-' || c.isAlphanum := rfl
    have hx := List.all_eq_true.1 hb _ hm
    cases w with
    | nil => cases hx
    | cons c w => exact ⟨c, w ++ r, rfl, by simpa using hx⟩
  · split at h
    · exact ⟨'-', _, rfl, .inl rfl⟩
    · exact hn h

theorem isSpace_of_begins {c : Char} (h : c = '-' ∨ c.isAlphanum) : isSpace c = false := by
  refine Bool.eq_false_iff.2 fun hs => ?_
  simp only [isSpace, Bool.or_eq_true, decide_eq_true_eq] at hs
  obtain ((rfl | rfl) | rfl) | rfl := hs <;> exact absurd h (by decide)

theorem readPlain_write {v : Json} (hv : (∃ i, v = .int i) ∨ ∃ x, v = .float x) (h : v.Legible)
    (depth : Nat) {k : List Char} (hk : Ends k) :
    readPlain (v.write l depth ++ k) = .ok (v, k) := by
  obtain ⟨i, rfl⟩ | ⟨x, rfl⟩ := hv
  · exact readPlain_int h hk
  · exact readPlain_float h hk

theorem write_head {v : Json} (h : v.Legible) (depth : Nat) :
    ∃ c t, v.write l depth = c :: t ∧ isSpace c = false ∧ c ≠ ']' ∧ c ≠ '}' := by
  have hp (hv : (∃ i, v = .int i) ∨ ∃ x, v = .float x) :
      ∃ c t, v.write l depth = c :: t ∧ isSpace c = false ∧ c ≠ ']' ∧ c ≠ '}' := by
    have hr := readPlain_write (l := l) hv h depth .nil
    rw [List.append_nil] at hr
    obtain ⟨c, t, ht, hc⟩ := readPlain_begins hr
    refine ⟨c, t, ht, isSpace_of_begins hc, ?_, ?_⟩ <;> rintro rfl <;> exact absurd hc (by decide)
  cases v with
  | null => exact ⟨'n', _, rfl, by decide⟩
  | bool b => cases b <;> exact ⟨_, _, rfl, by decide⟩
  | int i => exact hp (.inl ⟨i, rfl⟩)
  | float x => exact hp (.inr ⟨x, rfl⟩)
  | string t =>
    rw [write, writeString_eq]
    exact ⟨'"', _, rfl, by decide⟩
  | array xs => cases xs <;> exact ⟨'[', _, rfl, by decide⟩
  | object fs => cases fs <;> exact ⟨'{', _, rfl, by decide⟩

theorem skip_write {v : Json} (h : v.Legible) (depth : Nat) (k : List Char) :
    skip (v.write l depth ++ k) = v.write l depth ++ k := by
  obtain ⟨c, t, ht, hc, -, -⟩ := write_head (l := l) h depth
  rw [ht]
  exact skip_cons hc (t ++ k)

theorem skip_close (depth : Nat) (c : Char) (hc : isSpace c = false) (k : List Char) :
    skip (l.lineBreak depth ++ [c] ++ k) = c :: k := by
  rw [List.append_assoc, skip_lineBreak]
  exact skip_cons hc k

theorem ends_writeItems (depth : Nat) (xs : List Json) (k : List Char) :
    Ends (writeItems l depth xs ++ k) := by
  cases xs with
  | nil => exact (ends_of_skip (skip_close (l := l) depth ']' rfl k) (by simp)).2
  | cons x xs => exact .cons _ (by decide)

theorem ends_writeFields (depth : Nat) (fs : Fields) (k : List Char) :
    Ends (writeFields l depth fs ++ k) := by
  cases fs with
  | nil => exact (ends_of_skip (skip_close (l := l) depth '}' rfl k) (by simp)).2
  | cons x fs => exact .cons _ (by decide)

theorem fuel_write {v : Json} (h : v.Legible) {depth fuel : Nat}
    (hf : 2 * (v.write l depth).length ≤ fuel) : ∃ n, fuel = n + 2 := by
  obtain ⟨c, t, ht, -⟩ := write_head (l := l) h depth
  rw [ht, List.length_cons] at hf
  exact ⟨fuel - 2, by omega⟩

theorem readValue_number {v : Json} (hv : (∃ i, v = .int i) ∨ ∃ x, v = .float x) (h : v.Legible)
    (depth : Nat) {k : List Char} (hk : Ends k) {fuel : Nat}
    (hf : 2 * (v.write l depth).length ≤ fuel) (room : Nat) :
    readValue fuel room (v.write l depth ++ k) = .ok (v, k) := by
  obtain ⟨fuel, rfl⟩ := fuel_write h hf
  have hr := readPlain_write (l := l) hv h depth hk
  obtain ⟨c, t, ht, hc⟩ := readPlain_begins hr
  rw [ht] at hr ⊢
  refine readValue_succ.2 (.plain ?_ ?_ ?_ hr) <;>
    simp only [List.head?_cons, ne_eq, Option.some.injEq] <;> rintro rfl <;>
    exact absurd hc (by decide)

mutual

theorem readValue_write (hl : l.Blank) : ∀ (v : Json) (depth fuel room : Nat) (k : List Char), v.Legible →
    v.nesting ≤ room → Ends k → 2 * (v.write l depth).length ≤ fuel →
    readValue fuel room (v.write l depth ++ k) = .ok (v, k)
  | .null, _, fuel, _, k, h, _, _, hf => by
    obtain ⟨fuel, rfl⟩ := fuel_write h hf
    rfl
  | .bool b, _, fuel, _, k, h, _, _, hf => by
    obtain ⟨fuel, rfl⟩ := fuel_write h hf
    cases b <;> rfl
  | .int i, depth, _, room, _, h, _, hk, hf => readValue_number (.inl ⟨i, rfl⟩) h depth hk hf room
  | .float x, depth, _, room, _, h, _, hk, hf => readValue_number (.inr ⟨x, rfl⟩) h depth hk hf room
  | .string t, _, fuel, _, k, h, _, _, hf => by
    obtain ⟨fuel, rfl⟩ := fuel_write h hf
    simp only [write, writeString_eq, List.cons_append, List.append_assoc, List.nil_append]
    exact readValue_succ.2 (.string (readString_write h k))
  | .array [], _, fuel, room, k, h, hm, _, hf => by
    obtain ⟨fuel, rfl⟩ := fuel_write h hf
    obtain ⟨room, rfl, -⟩ := exists_fuel hm
    rfl
  | .array (x :: xs), depth, fuel, room, k, h, hm, _, hf => by
    obtain ⟨fuel, rfl⟩ := fuel_write h hf
    obtain ⟨room, rfl, hle⟩ := exists_fuel hm
    obtain ⟨hx, hxs⟩ := Nat.max_le.1 hle
    simp only [write, List.length_cons, List.length_append] at hf
    have hr := readValue_write hl x (depth + 1) fuel room (writeItems l depth xs ++ k) h.1 hx
      (ends_writeItems depth xs k) (by omega)
    have hi := readItems_write hl xs depth fuel room k x _ h.2 hxs hr (by omega)
    have hs : skip (l.lineBreak (depth + 1) ++ (x.write l (depth + 1) ++ (writeItems l depth xs ++ k)))
        = x.write l (depth + 1) ++ (writeItems l depth xs ++ k) := by
      rw [skip_lineBreak, skip_write h.1]
    simp only [write, List.cons_append, List.append_assoc]
    refine readValue_succ.2 (.array (fun r' hr => ?_) (by rwa [hs]))
    obtain ⟨c, t, ht, -, hc, -⟩ := write_head (l := l) h.1 (depth + 1)
    rw [hs, ht] at hr
    exact hc (List.cons.inj hr).1
  | .object [], _, fuel, room, k, h, hm, _, hf => by
    obtain ⟨fuel, rfl⟩ := fuel_write h hf
    obtain ⟨room, rfl, -⟩ := exists_fuel hm
    rfl
  | .object ((n, v) :: fs), depth, fuel, room, k, h, hm, _, hf => by
    obtain ⟨fuel, rfl⟩ := fuel_write h hf
    obtain ⟨room, rfl, hle⟩ := exists_fuel hm
    obtain ⟨hmv, hmfs⟩ := Nat.max_le.1 hle
    obtain ⟨hd, hn, hv, hfs⟩ := h
    simp only [write, List.length_cons, List.length_append] at hf
    have hr := readValue_write hl v (depth + 1) fuel room (writeFields l depth fs ++ k) hv hmv
      (ends_writeFields depth fs k) (by omega)
    have hs : skip (l.colon ++ (v.write l (depth + 1) ++ (writeFields l depth fs ++ k)))
        = v.write l (depth + 1) ++ (writeFields l depth fs ++ k) := by
      rw [skip_blank hl.2, skip_write hv]
    have hi := readFields_write hl fs depth fuel room k [] n v _ _ hfs hmfs (by simpa using hd)
      (readString_write hn _) (skip_cons rfl _) (hs ▸ hr) (by omega)
    simp only [write, writeString_eq, List.cons_append, List.append_assoc, List.nil_append]
    refine readValue_succ.2 (.object (fun r' hr => ?_) ?_)
    · rw [skip_lineBreak, skip_cons rfl] at hr
      cases hr
    · rw [skip_lineBreak, skip_cons rfl]
      exact hi

/-- The items of a list from the one on that has just been read. -/
theorem readItems_write (hl : l.Blank) : ∀ (xs : List Json) (depth fuel room : Nat) (k : List Char)
    (x : Json) (s : List Char), LegibleItems xs → nestingItems xs ≤ room →
    readValue fuel room s = .ok (x, writeItems l depth xs ++ k) →
    2 * (writeItems l depth xs).length ≤ fuel → readItems (fuel + 1) room s = .ok (x :: xs, k)
  | [], depth, fuel, room, k, x, s, _, _, hx, _ =>
    readItems_succ.2 (.last hx (skip_close (l := l) depth ']' rfl k))
  | y :: ys, depth, fuel, room, k, x, s, h, hm, hx, hf => by
    obtain ⟨hmy, hmys⟩ := Nat.max_le.1 hm
    simp only [writeItems, List.length_cons, List.length_append] at hf
    obtain ⟨fuel, rfl⟩ : ∃ n, fuel = n + 1 := ⟨fuel - 1, by omega⟩
    have hy := readValue_write hl y (depth + 1) fuel room (writeItems l depth ys ++ k) h.1 hmy
      (ends_writeItems depth ys k) (by omega)
    have hi := readItems_write hl ys depth fuel room k y _ h.2 hmys hy (by omega)
    refine readItems_succ.2 (.more hx (skip_cons rfl _) ?_)
    simpa [skip_blank hl.1, skip_lineBreak, skip_write h.1] using hi

theorem readFields_write (hl : l.Blank) : ∀ (fs : Fields) (depth fuel room : Nat) (k : List Char)
    (seen : Fields) (n : LooseText) (v : Json) (r r₁ : List Char), ∀ {s : List Char}, LegibleFields fs →
    nestingFields fs ≤ room → ((seen ++ (n, v) :: fs).map Prod.fst).Nodup → readString s = .ok (n, r) →
    skip r = ':' :: r₁ → readValue fuel room (skip r₁) = .ok (v, writeFields l depth fs ++ k) →
    2 * (writeFields l depth fs).length ≤ fuel →
    readFields (fuel + 1) room seen ('"' :: s) = .ok (seen ++ (n, v) :: fs, k)
  | [], depth, fuel, room, k, seen, n, v, r, r₁, s, _, _, hd, hn, hc, hv, _ => by
    rw [← Fields.put_append v (Fields.not_mem_of_nodup hd)]
    exact readFields_succ.2 (.last hn hc hv (skip_close (l := l) depth '}' rfl k))
  | (m, w) :: fs, depth, fuel, room, k, seen, n, v, r, r₁, s, h, hroom, hd, hn, hc, hv, hf => by
    obtain ⟨hm, hw, hfs⟩ := h
    obtain ⟨hmw, hmfs⟩ := Nat.max_le.1 hroom
    simp only [writeFields, List.length_cons, List.length_append] at hf
    obtain ⟨fuel, rfl⟩ : ∃ n, fuel = n + 1 := ⟨fuel - 1, by omega⟩
    have hr := readValue_write hl w (depth + 1) fuel room (writeFields l depth fs ++ k) hw hmw
      (ends_writeFields depth fs k) (by omega)
    have hs : skip (l.colon ++ (w.write l (depth + 1) ++ (writeFields l depth fs ++ k)))
        = w.write l (depth + 1) ++ (writeFields l depth fs ++ k) := by
      rw [skip_blank hl.2, skip_write hw]
    have hi := readFields_write hl fs depth fuel room k (seen ++ [(n, v)]) m w _ _ hfs hmfs
      (by simpa using hd)
      (readString_write hm _) (skip_cons rfl _) (hs ▸ hr) (by omega)
    refine readFields_succ.2 (.more hn hc hv (skip_cons rfl _) ?_)
    rw [Fields.put_append v (Fields.not_mem_of_nodup hd)]
    simpa [writeString_eq, skip_blank hl.1, skip_lineBreak, skip_cons (show isSpace '"' = false from rfl)]
      using hi

end

end Reader

/-- A written value is read back, and what stood behind it is left. -/
theorem readAt_render {l : Layout} (hl : l.Blank) {v : Json} (h : v.Legible) {limit : Nat}
    (hm : v.nesting ≤ limit) {k : List Char} (hk : Reader.Ends k) :
    readAt limit (render l v ++ k) = .ok (v, k) :=
  Reader.readValue_write hl v 0 _ limit k h hm hk (by
    simp only [render, List.length_append]
    omega)

end Json
end CodeAudit
