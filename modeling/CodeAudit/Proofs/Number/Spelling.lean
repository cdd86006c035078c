import CodeAudit.Proofs.Json.Exact
import CodeAudit.Proofs.Number.Nearest
import CodeAudit.Proofs.Number.Spelled
import CodeAudit.Proofs.Text.Case

set_option autoImplicit false

namespace CodeAudit.Number
open Text
variable {base n d : Nat} {c : Char} {s w : List Char}

/-- The number in small letters, without the marks that do not count. -/
inductive Written (n : Nat) : List Char → Prop
  | decimal : Written n (Nat.toDigits 10 n)
  | announced {mark : Char} {base : Nat} (hmark : (mark, base) ∈ marks) (zeros : Nat) :
      Written n ('0' :: mark :: (List.replicate zeros '0' ++ Nat.toDigits base n))
  | oldOctal (zeros : Nat) : Written n ('0' :: (List.replicate zeros '0' ++ Nat.toDigits 8 n))

/-- The literal, but for underscores, capitals and the suffix of a big integer, is the number in writing. -/
def IsSpelling (n : Nat) (s : List Char) : Prop :=
  ∃ w, Written n w ∧
    ((s.filter (· ≠ '_')).map Char.toLower = w ∨ (s.filter (· ≠ '_')).map Char.toLower = w ++ ['n'])

example : IsSpelling 255 "0XF_fn".toList := ⟨_, .announced (by decide : ('x', 16) ∈ marks) 0, .inr (by decide)⟩

theorem digitChar_spec : ∀ d < 16, digitValue? (Nat.digitChar d) = (if d < 10 then some d else none) ∧
    (10 ≤ d → (Nat.digitChar d).toNat = d + 87) ∧ (Nat.digitChar d).toNat < 128 ∧ Nat.digitChar d ≠ 'n' := by
  decide

theorem isDigit_digitChar (hb : base ≤ 16) (hd : d < base) : IsDigit base (Nat.digitChar d) d := by
  obtain ⟨hvalue, hletter, -⟩ := digitChar_spec d (by omega)
  by_cases h : d < 10
  · exact .decimal (hvalue.trans (if_pos h)) hd
  · exact .letter (hletter (by omega)) (by omega) hd

theorem toDigits_induction {motive : List Char → Nat → Prop} (hbase : 1 < base)
    (one : ∀ d < base, motive [Nat.digitChar d] d)
    (snoc : ∀ s n d, d < base → motive s n → motive (s ++ [Nat.digitChar d]) (n * base + d)) (n : Nat) :
    motive (Nat.toDigits base n) n := by
  induction n using Nat.strongRecOn with
  | ind n ih =>
    by_cases h : n < base
    · rw [Nat.toDigits_of_lt_base h]
      exact one n h
    · rw [Nat.toDigits_of_base_le hbase (Nat.le_of_not_lt h)]
      have hlast := snoc _ _ _ (Nat.mod_lt n (by omega)) (ih (n / base) (Nat.div_lt_self (by omega) hbase))
      rwa [Nat.div_add_mod'] at hlast

theorem spells_toDigits (hbase : 1 < base) (hb : base ≤ 16) (n : Nat) : Spells base (Nat.toDigits base n) n :=
  toDigits_induction hbase (fun _ hd => .one (isDigit_digitChar hb hd))
    (fun _ _ _ hd ih => ih.snoc (isDigit_digitChar hb hd)) n

theorem exists_digitChar (hbase : 1 < base) (n : Nat) :
    ∀ c ∈ Nat.toDigits base n, ∃ d < base, Nat.digitChar d = c := by
  refine toDigits_induction (motive := fun s _ => ∀ c ∈ s, ∃ d < base, Nat.digitChar d = c) hbase
    (fun d hd c hc => ⟨d, hd, (List.mem_singleton.1 hc).symm⟩) (fun s _ d hd ih c hc => ?_) n
  obtain hc | hc := List.mem_append.1 hc
  · exact ih c hc
  · exact ⟨d, hd, (List.mem_singleton.1 hc).symm⟩

theorem Spells.zero_cons (h : Spells base s n) (hb : 0 < base) : Spells base ('0' :: s) n := by
  have hzero : IsDigit base '0' 0 := .decimal (by decide) hb
  induction h with
  | @one c d hd =>
    have hcons := (Spells.one hzero).snoc hd
    rwa [Nat.zero_mul, Nat.zero_add] at hcons
  | snoc _ hd ih => exact ih.snoc hd

theorem Spells.zeros_append (h : Spells base s n) (hb : 0 < base) (zeros : Nat) :
    Spells base (List.replicate zeros '0' ++ s) n := by
  induction zeros with
  | zero => exact h
  | succ zeros ih => exact ih.zero_cons hb

theorem marks_bases : ∀ m ∈ marks, 1 < m.2 ∧ m.2 ≤ 16 ∧ m.1.toNat < 128 ∧ m.1 ≠ 'n' := by decide

theorem Written.whole (h : Written n w) : w = Nat.toDigits 10 n ∨ WholeLiteral w n := by
  cases h with
  | decimal => exact .inl rfl
  | @announced mark base hmark zeros =>
    obtain ⟨hbase, hb, -⟩ := marks_bases _ hmark
    have hdigits := (spells_toDigits hbase hb n).zeros_append (by omega) zeros
    rw [← List.append_nil (List.replicate zeros '0' ++ Nat.toDigits base n)]
    exact .inr (.announced hmark hdigits (by simp))
  | oldOctal zeros =>
    have hdigits : Spells 8 (List.replicate (zeros + 1) '0' ++ Nat.toDigits 8 n) n :=
      (spells_toDigits (by decide) (by decide) n).zeros_append (by decide) (zeros + 1)
    refine .inr (.oldOctal rfl ?_ hdigits)
    have hne : 0 < (Nat.toDigits 8 n).length := List.length_pos_iff.2 Nat.toDigits_ne_nil
    simp only [List.length_append, List.length_replicate, List.length_cons]
    omega

theorem Written.chars (h : Written n w) : ∀ c ∈ w, c.toNat < 128 ∧ c ≠ 'n' := by
  have hdigits {base : Nat} (hbase : 1 < base) (hb : base ≤ 16) (zeros : Nat) :
      ∀ c ∈ List.replicate zeros '0' ++ Nat.toDigits base n, c.toNat < 128 ∧ c ≠ 'n' := by
    intro c hc
    obtain hc | hc := List.mem_append.1 hc
    · rw [List.eq_of_mem_replicate hc]
      decide
    · obtain ⟨d, hd, rfl⟩ := exists_digitChar hbase n c hc
      exact (digitChar_spec d (by omega)).2.2
  cases h with
  | decimal => exact hdigits (by decide) (by decide) 0
  | @announced mark base hmark zeros =>
    obtain ⟨hbase, hb, hmark⟩ := marks_bases _ hmark
    exact List.forall_mem_cons.2 ⟨by decide, List.forall_mem_cons.2 ⟨hmark, hdigits hbase hb zeros⟩⟩
  | oldOctal zeros => exact List.forall_mem_cons.2 ⟨by decide, hdigits (by decide) (by decide) zeros⟩

theorem toLower_eq_n (h : c.toLower = 'n') : c = 'n' ∨ c = 'N' := by
  have hsmall : ∀ k < 128, (Char.ofNat k).toLower = 'n' → Char.ofNat k = 'n' ∨ Char.ofNat k = 'N' := by decide
  have hlt : c.toNat < 128 := toNat_lt_of_toLower (h ▸ by decide)
  have hc := hsmall c.toNat hlt
  rw [Char.ofNat_toNat] at hc
  exact hc h

theorem bare_eq {digits suffix : List Char} (hs : s.filter (· ≠ '_') = digits ++ suffix)
    (hdigits : ∀ c ∈ digits, c.toNat < 128 ∧ c ≠ 'n' ∧ c ≠ 'N') (hsuffix : ∀ c ∈ suffix, c = 'n' ∨ c = 'N') :
    bare s = digits.map Char.toLower := by
  have hdrop : dropTail (fun c => decide (c = 'n') || decide (c = 'N')) (digits ++ suffix) = digits := by
    have hall : ∀ c ∈ suffix.reverse, (decide (c = 'n') || decide (c = 'N')) = true := fun c hc => by
      simpa using hsuffix c (List.mem_reverse.1 hc)
    rw [dropTail, List.reverse_append, List.dropWhile_append_of_pos hall]
    refine List.rdropWhile_eq_self_iff.2 fun hne => ?_
    simpa using (hdigits _ (List.getLast_mem hne)).2
  have hlower := lowerFrom_of_lt (fun c hc => (hdigits c hc).1) [] []
  rw [List.append_nil] at hlower
  rw [bare, hs, hdrop, lower, hlower]
  exact List.append_nil _

theorem bare_of_written (hw : Written n w)
    (h : (s.filter (· ≠ '_')).map Char.toLower = w ∨ (s.filter (· ≠ '_')).map Char.toLower = w ++ ['n']) :
    bare s = w := by
  obtain ⟨digits, suffix, hsplit, rfl, hsuffix⟩ : ∃ digits suffix, s.filter (· ≠ '_') = digits ++ suffix ∧
      digits.map Char.toLower = w ∧ ∀ c ∈ suffix, c = 'n' ∨ c = 'N' := by
    obtain h | h := h
    · exact ⟨_, [], (List.append_nil _).symm, h, by simp⟩
    · obtain ⟨digits, suffix, hsplit, hdigits, hsuffix⟩ := List.map_eq_append_iff.1 h
      refine ⟨digits, suffix, hsplit, hdigits, fun c hc => toLower_eq_n ?_⟩
      have hmem := List.mem_map_of_mem (f := Char.toLower) hc
      rw [hsuffix] at hmem
      exact List.mem_singleton.1 hmem
  refine bare_eq hsplit (fun c hc => ?_) hsuffix
  obtain ⟨hascii, hn⟩ := hw.chars _ (List.mem_map_of_mem hc)
  refine ⟨toNat_lt_of_toLower hascii, ?_, ?_⟩
  · rintro rfl
    exact hn rfl
  · rintro rfl
    exact hn rfl

structure Plain (c : Char) : Prop where
  isDigit : c.isDigit
  decimal : isDecimal c
  unblank : isNumberBlank c = false
  lower : c.toLower = c
  digit : plainDigit c = c

theorem plain_of_mem (n : Nat) : ∀ c ∈ Nat.toDigits 10 n, Plain c := by
  have hplain : ∀ d < 10, (Nat.digitChar d).isDigit ∧ isDecimal (Nat.digitChar d) ∧
      isNumberBlank (Nat.digitChar d) = false ∧ (Nat.digitChar d).toLower = Nat.digitChar d ∧
      plainDigit (Nat.digitChar d) = Nat.digitChar d := by decide
  intro c hc
  obtain ⟨d, hd, rfl⟩ := exists_digitChar (by decide) n c hc
  obtain ⟨hdigit, hdecimal, hblank, hlower, hself⟩ := hplain d hd
  exact ⟨hdigit, hdecimal, hblank, hlower, hself⟩

theorem based?_toDigits (n : Nat) : based? (Nat.toDigits 10 n) = none := by
  have hannounced : announcedBase? (Nat.toDigits 10 n) = none := by
    cases h : announcedBase? (Nat.toDigits 10 n) with
    | none => rfl
    | some x =>
      obtain ⟨mark, hmark, hs⟩ := announcedBase?_eq_some.1 h
      have hmem : mark ∈ Nat.toDigits 10 n := hs ▸ by simp
      exact absurd (plain_of_mem n mark hmem).decimal (by simp [(marks_spec _ hmark).2])
  have hold : ¬isOldOctal (Nat.toDigits 10 n) := fun h => by
    obtain ⟨hzero, hlong, -⟩ := isOldOctal_iff.1 h
    obtain hdigits | ⟨hhead, -⟩ := Json.Reader.toDigits_numeral n
    · rw [hdigits] at hlong
      exact absurd hlong (by decide)
    · exact hhead hzero
  rw [based?, hannounced]
  exact if_neg hold

theorem ofDecimal_zero (n : Nat) : Binary64.ofDecimal false n 0 = Binary64.ofNat n := by
  by_cases hn : n = 0
  · subst hn
    rw [(Binary64.ofNat_finite (n := 0) (by decide +kernel)).1, Binary64.roundUnits_ofNat (Nat.zero_le _), Nat.zero_mul]
    exact if_pos rfl
  · rw [Binary64.ofDecimal, if_neg hn, if_neg (by decide), if_neg (by omega), if_pos (by decide), Binary64.ofNat]
    exact congrArg (Binary64.ofRatio false · 1) (Nat.mul_one n)

theorem decimal?_digits {ds : List Char} (hne : ds ≠ []) (hd : ∀ c ∈ ds, c.isDigit) :
    decimal? false ds = some (Binary64.ofNat (valueIn 10 ds)) := by
  have hspan : ds.span Char.isDigit = (ds, []) := by
    rw [List.span_eq_takeWhile_dropWhile, List.takeWhile_eq_self_iff.2 hd, List.dropWhile_eq_nil_iff.2 hd]
  rw [decimal?, hspan]
  simp [exponent?, hne, ofDecimal_zero]

theorem plainReal?_toDigits (n : Nat) : plainReal? (Nat.toDigits 10 n) = some (Binary64.ofNat n) := by
  have hdigits : ∀ c ∈ Nat.toDigits 10 n, c.isDigit := fun c hc => (plain_of_mem n c hc).isDigit
  have hsign : splitSign (Nat.toDigits 10 n) = (false, Nat.toDigits 10 n) := by
    unfold splitSign
    split
    · rename_i h
      exact absurd (hdigits '-' (h ▸ List.mem_cons_self)) (by decide)
    · rename_i h
      exact absurd (hdigits '+' (h ▸ List.mem_cons_self)) (by decide)
    · rfl
  have hlower : (Nat.toDigits 10 n).map Char.toLower = Nat.toDigits 10 n :=
    (List.map_congr_left fun c hc => (plain_of_mem n c hc).lower).trans (List.map_id _)
  have hinf : 'i' ∉ Nat.toDigits 10 n := fun h => absurd (hdigits _ h) (by decide)
  have hnan : 'a' ∉ Nat.toDigits 10 n := fun h => absurd (hdigits _ h) (by decide)
  rw [plainReal?, hsign]
  dsimp only
  rw [hlower, if_neg, if_neg, decimal?_digits Nat.toDigits_ne_nil hdigits, Json.Reader.valueIn_toDigits]
  · exact fun h => hnan (h ▸ by decide)
  · rintro (h | h)
    · exact hinf (h ▸ by decide)
    · exact hinf (h ▸ by decide)

theorem trimBy_of_none {p : Char → Bool} (h : ∀ c ∈ s, p c = false) : trimBy p s = s := by
  have hfront : s.dropWhile p = s := List.dropWhile_eq_self_iff.2 fun hl => by simp [h _ (List.getElem_mem hl)]
  have hback : s.rdropWhile p = s := List.rdropWhile_eq_self_iff.2 fun hl => by simp [h _ (List.getLast_mem hl)]
  rw [trimBy, hfront]
  exact hback

theorem real?_toDigits (n : Nat) : real? (Nat.toDigits 10 n) = some (Binary64.ofNat n) := by
  have hplain : (Nat.toDigits 10 n).map plainDigit = Nat.toDigits 10 n :=
    (List.map_congr_left fun c hc => (plain_of_mem n c hc).digit).trans (List.map_id _)
  rw [real?, hplain, trimBy_of_none fun c hc => (plain_of_mem n c hc).unblank, plainReal?_toDigits]

theorem toDouble_ok (h : n < Binary64.beyond) : toDouble n = .ok (Binary64.ofNat n) := by
  rw [toDouble_eq]
  dsimp only
  rw [(Binary64.ofNat_finite h).1]

theorem literal?_spelling (h : n < Binary64.beyond) (hs : IsSpelling n s) :
    literal? s = .ok (some (Binary64.ofNat n)) := by
  obtain ⟨w, hw, hmarks⟩ := hs
  have hbare := bare_of_written hw hmarks
  rw [literal?, hbare]
  obtain rfl | hwhole := hw.whole
  · rw [based?_toDigits, real?_toDigits]
  · rw [based?_eq_some.2 hwhole]
    exact congrArg (Except.map some) (toDouble_ok h)

end CodeAudit.Number
