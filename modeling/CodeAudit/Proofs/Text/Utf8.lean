import CodeAudit.Text.Utf8
import Mathlib.Tactic.Common

set_option autoImplicit false

namespace CodeAudit.Text.Utf8

theorem length_encode (s : List Char) : (encode s).length = (String.ofList s).utf8ByteSize := by
  simp [encode, String.utf8ByteSize, List.utf8Encode]

theorem encode_append (s t : List Char) : encode (s ++ t) = encode s ++ encode t := List.flatMap_append

theorem encode_feeds (k : Nat) : encode (List.replicate k '\n') = List.replicate k 10 := by
  induction k with
  | zero => rfl
  | succ k ih =>
    rw [List.replicate_succ, encode, List.flatMap_cons]
    change String.utf8EncodeChar '\n' ++ encode (List.replicate k '\n') = _
    rw [ih]
    rfl

theorem not_mem_encodeChar {c : Char} (hc : c ≠ '\n') : 10 ∉ String.utf8EncodeChar c := by
  have hbyte {n : Nat} (h : 10 = UInt8.ofNat n) : n % 256 = 10 := by
    simpa using (congrArg UInt8.toNat h).symm
  unfold String.utf8EncodeChar
  dsimp only
  split
  · rename_i hv
    intro h
    have hval := hbyte (List.mem_singleton.1 h)
    exact hc (Char.ext (UInt32.toNat.inj (show c.val.toNat = 10 by omega)))
  · intro h
    split at h
    · simp only [List.mem_cons, List.not_mem_nil, or_false] at h
      rcases h with h | h <;> have := hbyte h <;> omega
    · split at h
      · simp only [List.mem_cons, List.not_mem_nil, or_false] at h
        rcases h with h | h | h <;> have := hbyte h <;> omega
      · simp only [List.mem_cons, List.not_mem_nil, or_false] at h
        rcases h with h | h | h | h <;> have := hbyte h <;> omega

theorem count_encode (s : List Char) : (encode s).count 10 = s.count '\n' := by
  induction s with
  | nil => rfl
  | cons c s ih =>
    have hc : (String.utf8EncodeChar c).count 10 = if c = '\n' then 1 else 0 := by
      split
      · rename_i hc
        subst hc
        decide
      · rename_i hc
        exact List.count_eq_zero_of_not_mem (not_mem_encodeChar hc)
    simp only [encode, List.flatMap_cons, List.count_append, List.count_cons, beq_iff_eq] at ih ⊢
    omega

/-- These bytes, behind a character begun if there is one, are read as this text. -/
def Reads (q : Option Partial) (bytes : List UInt8) (s : List Char) : Prop := readFrom q bytes = s.map some

variable {b : UInt8} {bytes r : List UInt8} {c : Char} {s : List Char}

theorem whole_eq_iff {cs : List (Option Char)} : some c :: cs = s.map some ↔ ∃ t, s = c :: t ∧ cs = t.map some := by
  cases s with
  | nil => simp
  | cons d s => simp [eq_comm]

theorem broken_ne {cs : List (Option Char)} : none :: cs ≠ s.map some := by
  cases s <;> simp

theorem decode?_eq_some_iff_reads : decode? bytes = some s ↔ Reads none bytes s := by
  unfold decode? read Reads
  generalize readFrom none bytes = cs
  induction cs generalizing s with
  | nil => cases s <;> simp
  | cons c cs ih =>
    cases c with
    | none => simp [broken_ne]
    | some c =>
      rw [whole_eq_iff]
      simp only [List.mapM_cons, id_eq, Option.pure_def, Option.bind_eq_bind, Option.bind_some,
        Option.bind_eq_some_iff, ih, Option.some.injEq]
      exact exists_congr fun t => by rw [and_comm, eq_comm]

theorem readFrom_fresh : readFrom none (b :: r) = (first b.toNat).1 ++ readFrom (first b.toNat).2 r := rfl

section Begun

theorem readFrom_begun {p : Partial} :
    readFrom (some p) (b :: r) = (next p b.toNat).1 ++ readFrom (next p b.toNat).2 r := rfl

variable {bits missing low high : Nat}

theorem reads_last : Reads (some ⟨bits, 1, low, high⟩) bytes s ↔ ∃ b r t, bytes = b :: r ∧
    (low ≤ b.toNat ∧ b.toNat ≤ high) ∧ s = Char.ofNat (bits * 64 + (b.toNat - 0x80)) :: t ∧ Reads none r t := by
  cases bytes with
  | nil => simp [Reads, readFrom, broken_ne]
  | cons b r =>
    rw [Reads, readFrom_begun, next]
    by_cases hb : low ≤ b.toNat ∧ b.toNat ≤ high
    · simpa [hb, Reads] using whole_eq_iff
    · simp [hb, broken_ne]

theorem reads_more : Reads (some ⟨bits, missing + 2, low, high⟩) bytes s ↔ ∃ b r, bytes = b :: r ∧
    (low ≤ b.toNat ∧ b.toNat ≤ high) ∧
      Reads (some ⟨bits * 64 + (b.toNat - 0x80), missing + 1, 0x80, 0xbf⟩) r s := by
  cases bytes with
  | nil => simp [Reads, readFrom, broken_ne]
  | cons b r =>
    rw [Reads, readFrom_begun, next]
    by_cases hb : low ≤ b.toNat ∧ b.toNat ≤ high
    · simp [hb, Reads]
    · simp [hb, broken_ne]

end Begun

/-- A byte that begins a character is one itself or begins one of two, three or four bytes. -/
theorem reads_fresh : Reads none (b :: r) s ↔
    (b.toNat < 0x80 ∧ ∃ t, s = Char.ofNat b.toNat :: t ∧ Reads none r t) ∨
    ((0xc2 ≤ b.toNat ∧ b.toNat < 0xe0) ∧ Reads (some ⟨b.toNat - 0xc0, 1, 0x80, 0xbf⟩) r s) ∨
    ((0xe0 ≤ b.toNat ∧ b.toNat < 0xf0) ∧ Reads (some ⟨b.toNat - 0xe0, 2,
      if b.toNat = 0xe0 then 0xa0 else 0x80, if b.toNat = 0xed then 0x9f else 0xbf⟩) r s) ∨
    ((0xf0 ≤ b.toNat ∧ b.toNat < 0xf5) ∧ Reads (some ⟨b.toNat - 0xf0, 3,
      if b.toNat = 0xf0 then 0x90 else 0x80, if b.toNat = 0xf4 then 0x8f else 0xbf⟩) r s) := by
  have hbroken : none :: readFrom none r ≠ s.map some := broken_ne
  have hwhole : some (Char.ofNat b.toNat) :: readFrom none r = s.map some ↔ _ := whole_eq_iff
  unfold Reads
  rw [readFrom_fresh, first]
  generalize b.toNat = n at hwhole ⊢
  -- the six ranges of the byte; what the others say is excluded by its bounds
  split
  · grind
  split
  · grind
  split
  · grind
  split
  · grind
  split
  · grind
  · grind

theorem toNat_ofNat_of_lt {n : Nat} (h : n < 256) : (UInt8.ofNat n).toNat = n := by
  rw [UInt8.toNat_ofNat']
  exact Nat.mod_eq_of_lt h

theorem ofNat_of_eq {n : Nat} (h : n = b.toNat) : UInt8.ofNat n = b := by rw [h, UInt8.ofNat_toNat]

theorem reads_encodeChar (h : Reads none r s) : Reads none (String.utf8EncodeChar c ++ r) (c :: s) := by
  have hv : c.toNat < 0xd800 ∨ 0xdfff < c.toNat ∧ c.toNat < 0x110000 := c.valid
  have hc {v : Nat} (h : v = c.toNat) : c :: s = Char.ofNat v :: s := by rw [h, Char.ofNat_toNat]
  rw [String.utf8EncodeChar]
  simp only [Char.toNat_val]
  split
  · refine reads_fresh.2 (.inl ⟨?_, s, hc ?_, h⟩)
    all_goals simp (disch := omega) only [toNat_ofNat_of_lt]
    omega
  split
  · refine reads_fresh.2 (.inr (.inl ⟨?_, reads_last.2 ⟨_, _, s, rfl, ?_, hc ?_, h⟩⟩))
    all_goals simp (disch := omega) only [toNat_ofNat_of_lt]
    all_goals omega
  split
  · refine reads_fresh.2 (.inr (.inr (.inl ⟨?_, reads_more.2 ⟨_, _, rfl, ⟨?_, ?_⟩, reads_last.2 ⟨_, _, s, rfl, ?_, hc ?_, h⟩⟩⟩)))
    all_goals simp (disch := omega) only [toNat_ofNat_of_lt]
    · omega
    · split <;> omega
    · split <;> omega
    · omega
    · omega
  · refine reads_fresh.2 (.inr (.inr (.inr ⟨?_, reads_more.2 ⟨_, _, rfl, ⟨?_, ?_⟩, reads_more.2 ⟨_, _, rfl, ?_,
      reads_last.2 ⟨_, _, s, rfl, ?_, hc ?_, h⟩⟩⟩⟩)))
    all_goals simp (disch := omega) only [toNat_ofNat_of_lt]
    · omega
    · split <;> omega
    · split <;> omega
    · omega
    · omega
    · omega

theorem reads_encode (s : List Char) : Reads none (encode s) s := by
  induction s with
  | nil => rfl
  | cons c s ih => exact reads_encodeChar ih

theorem encodeChar_ofNat {v : Nat} (h : v < 0xd800 ∨ 0xdfff < v ∧ v < 0x110000) :
    String.utf8EncodeChar (Char.ofNat v) =
      if v ≤ 0x7f then [.ofNat v]
      else if v ≤ 0x7ff then [.ofNat (v / 64 % 32 + 0xc0), .ofNat (v % 64 + 0x80)]
      else if v ≤ 0xffff then
        [.ofNat (v / 4096 % 16 + 0xe0), .ofNat (v / 64 % 64 + 0x80), .ofNat (v % 64 + 0x80)]
      else [.ofNat (v / 262144 % 8 + 0xf0), .ofNat (v / 4096 % 64 + 0x80), .ofNat (v / 64 % 64 + 0x80),
        .ofNat (v % 64 + 0x80)] := by
  have hv : (Char.ofNat v).val.toNat = v := by
    rw [Char.ofNat, dif_pos h]
    rfl
  rw [String.utf8EncodeChar, hv]

theorem encodeChar_of_reads (h : Reads none bytes (c :: s)) :
    ∃ r, bytes = String.utf8EncodeChar c ++ r ∧ Reads none r s := by
  cases bytes with
  | nil => cases h
  | cons b₁ r =>
    obtain ⟨hb, t, he, ht⟩ | ⟨hb, h₂⟩ | ⟨hb, h₂⟩ | ⟨hb, h₂⟩ := reads_fresh.1 h
    · obtain ⟨hc, rfl⟩ := List.cons.inj he
      refine ⟨r, ?_, ht⟩
      rw [hc, encodeChar_ofNat (by omega), if_pos (by omega), ofNat_of_eq rfl, List.singleton_append]
    · obtain ⟨b₂, r, t, rfl, hb₂, he, ht⟩ := reads_last.1 h₂
      obtain ⟨hc, rfl⟩ := List.cons.inj he
      refine ⟨r, ?_, ht⟩
      rw [hc, encodeChar_ofNat (by omega), if_neg (by omega), if_pos (by omega),
        ofNat_of_eq (b := b₁) (by omega), ofNat_of_eq (b := b₂) (by omega), List.cons_append,
        List.singleton_append]
    · obtain ⟨b₂, r, rfl, hb₂, h₃⟩ := reads_more.1 h₂
      obtain ⟨b₃, r, t, rfl, hb₃, he, ht⟩ := reads_last.1 h₃
      obtain ⟨hc, rfl⟩ := List.cons.inj he
      have hlow : 0x80 ≤ b₂.toNat ∧ (b₁.toNat = 0xe0 → 0xa0 ≤ b₂.toNat) := by grind
      have hhigh : b₂.toNat ≤ 0xbf ∧ (b₁.toNat = 0xed → b₂.toNat ≤ 0x9f) := by grind
      clear hb₂
      refine ⟨r, ?_, ht⟩
      rw [hc, encodeChar_ofNat (by omega), if_neg (by omega), if_neg (by omega), if_pos (by omega),
        ofNat_of_eq (b := b₁) (by omega), ofNat_of_eq (b := b₂) (by omega), ofNat_of_eq (b := b₃) (by omega),
        List.cons_append, List.cons_append, List.singleton_append]
    · obtain ⟨b₂, r, rfl, hb₂, h₃⟩ := reads_more.1 h₂
      obtain ⟨b₃, r, rfl, hb₃, h₄⟩ := reads_more.1 h₃
      obtain ⟨b₄, r, t, rfl, hb₄, he, ht⟩ := reads_last.1 h₄
      obtain ⟨hc, rfl⟩ := List.cons.inj he
      have hlow : 0x80 ≤ b₂.toNat ∧ (b₁.toNat = 0xf0 → 0x90 ≤ b₂.toNat) := by grind
      have hhigh : b₂.toNat ≤ 0xbf ∧ (b₁.toNat = 0xf4 → b₂.toNat ≤ 0x8f) := by grind
      clear hb₂
      refine ⟨r, ?_, ht⟩
      rw [hc, encodeChar_ofNat (by omega), if_neg (by omega), if_neg (by omega), if_neg (by omega),
        ofNat_of_eq (b := b₁) (by omega), ofNat_of_eq (b := b₂) (by omega), ofNat_of_eq (b := b₃) (by omega),
        ofNat_of_eq (b := b₄) (by omega), List.cons_append, List.cons_append, List.cons_append,
        List.singleton_append]

theorem encode_of_reads (h : Reads none bytes s) : bytes = encode s := by
  induction s generalizing bytes with
  | nil =>
    cases bytes with
    | nil => rfl
    | cons b r => simp [reads_fresh, reads_last, reads_more] at h
  | cons c s ih =>
    obtain ⟨r, rfl, hr⟩ := encodeChar_of_reads h
    rw [ih hr, encode, encode, List.flatMap_cons]

theorem decode?_eq_some_iff : decode? bytes = some s ↔ bytes = encode s := by
  rw [decode?_eq_some_iff_reads]
  refine ⟨encode_of_reads, ?_⟩
  rintro rfl
  exact reads_encode s

end CodeAudit.Text.Utf8
