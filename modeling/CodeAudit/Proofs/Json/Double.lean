import CodeAudit.Proofs.Json.Exact
import CodeAudit.Proofs.Number.Shortest
import Mathlib.Data.List.DropRight

/-!
Doubles in writing. Wherever the point stands and whether or not there is an exponent, the text of a
double is a decimal with the value of its shortest digits, and so reads back.
-/
set_option autoImplicit false

namespace CodeAudit

namespace Text

theorem valueIn_append (ds fs : List Char) : valueIn 10 (ds ++ fs) =
    fs.foldl (fun n c => n * 10 + (valueIn.digitIn? 10 c).getD 0) (valueIn 10 ds) :=
  List.foldl_append

theorem valueIn_zeros (ds : List Char) (n : Nat) :
    valueIn 10 (ds ++ List.replicate n '0') = valueIn 10 ds * 10 ^ n := by
  induction n with
  | zero => simp
  | succ n ih =>
    have hz : (valueIn.digitIn? 10 '0').getD 0 = 0 := rfl
    rw [List.replicate_succ', ← List.append_assoc, valueIn_append, List.foldl_cons, List.foldl_nil, ih,
      hz, Nat.add_zero, Nat.pow_succ, Nat.mul_assoc]

theorem valueIn_zeros_append (n : Nat) (ds : List Char) :
    valueIn 10 (List.replicate n '0' ++ ds) = valueIn 10 ds := by
  have hz : valueIn 10 (List.replicate n '0') = 0 := by
    have h := valueIn_zeros [] n
    rwa [List.nil_append, show valueIn 10 [] = 0 from rfl, Nat.zero_mul] at h
  rw [valueIn_append, hz]
  rfl

end Text

namespace Binary64

def unitsAt (ds : List Char) (point : Int) : ℚ := units (Text.valueIn 10 ds) (point - ds.length)

theorem units_shift (digits n : Nat) (power : Int) :
    units (digits * 10 ^ n) power = units digits (power + n) := by
  rw [units, units, zpow_add₀ (by norm_num), zpow_natCast]
  push_cast
  ring

theorem units_eq_zero_iff {digits : Nat} {power : Int} : units digits power = 0 ↔ digits = 0 := by
  have ho : (one : ℚ) ≠ 0 := by exact_mod_cast one_pos.ne'
  rw [units, mul_eq_zero_iff_right ho, mul_eq_zero_iff_right (by positivity), Nat.cast_eq_zero]

theorem unitsAt_zeros (ds : List Char) (n : Nat) (point : Int) :
    unitsAt (ds ++ List.replicate n '0') point = unitsAt ds point := by
  rw [unitsAt, unitsAt, Text.valueIn_zeros, units_shift, List.length_append, List.length_replicate]
  congr 1
  omega

theorem unitsAt_zeros_append (n : Nat) (ds : List Char) (point : Int) :
    unitsAt (List.replicate n '0' ++ ds) point = unitsAt ds (point - n) := by
  rw [unitsAt, unitsAt, Text.valueIn_zeros_append, List.length_append, List.length_replicate]
  congr 1
  omega

theorem placed_eq : placed = fun u => ((Nat.toDigits 10 (shortest u).1).rdropWhile (· == '0'),
    (Nat.toDigits 10 (shortest u).1).length + (shortest u).2) := by
  delta placed
  funext u
  -- With `shortest u` in the place of `x` the last step would compute it.
  obtain ⟨x, hx⟩ : ∃ x, shortest u = x := ⟨_, rfl⟩
  rw [hx]
  rfl

theorem placed_zeros (u : Nat) :
    ∃ n, Nat.toDigits 10 (shortest u).1 = (placed u).1 ++ List.replicate n '0' := by
  have h := List.rdropWhile_append_rtakeWhile (p := (· == '0')) (l := Nat.toDigits 10 (shortest u).1)
  rw [placed_eq]
  refine ⟨_, h.symm.trans (congrArg _ (List.eq_replicate_iff.2 ⟨rfl, fun c hc => ?_⟩))⟩
  simpa using List.mem_rtakeWhile_imp hc

theorem placed_near {u : Nat} (hu : spacing u ∣ u) (hp : 0 < u) :
    Near u (unitsAt (placed u).1 (placed u).2) := by
  obtain ⟨n, hz⟩ := placed_zeros u
  have hn := shortest_near hu hp
  have hl : (placed u).2 - ((Nat.toDigits 10 (shortest u).1).length : Int) = (shortest u).2 := by
    rw [placed_eq]
    exact add_sub_cancel_left _ _
  rwa [← unitsAt_zeros _ n, ← hz, unitsAt, Json.Reader.valueIn_toDigits, hl]

theorem placed_digits {u : Nat} (hu : spacing u ∣ u) (hp : 0 < u) (hl : u < limit) :
    (placed u).1 ≠ [] ∧ (placed u).1.head? ≠ some '0' ∧ ∀ c ∈ (placed u).1, c.isDigit := by
  obtain ⟨n, hz⟩ := placed_zeros u
  have hne : (placed u).1 ≠ [] := by
    intro he
    have h0 := (power_of_near hu hp hl (placed_near hu hp)).1
    rw [he] at h0
    exact h0 rfl
  have hv := Json.Reader.valueIn_toDigits (shortest u).1
  have h0 := (power_of_near hu hp hl (shortest_near hu hp)).1
  obtain hd | ⟨hh, -, hd⟩ := Json.Reader.toDigits_numeral (shortest u).1
  · rw [hd] at hv
    exact absurd hv.symm h0
  · rw [hz] at hh hd
    exact ⟨hne, by rwa [List.head?_append_of_ne_nil _ hne] at hh, fun c hc => hd c (by simp [hc])⟩

end Binary64

namespace Json.Reader

open Binary64 (exponentText limit placed spacing units unitsAt unsignedText)

theorem digits_of_ends {ds k : List Char} (hd : ∀ c ∈ ds, c.isDigit) (hk : Ends k) :
    digits (ds ++ k) = (ds, k) :=
  digits_eq_iff.2 ⟨rfl, hd, fun c hc => (hk c hc).1⟩

theorem exponent?_text (e : Int) {k : List Char} (hk : Ends k) :
    exponent? (exponentText e ++ k) = some (e, k) := by
  obtain ⟨ds, ht, hd, hne, hv⟩ : ∃ ds, exponentText e =
      'e' :: (if e < 0 then '-' else '+') :: ds ∧ (∀ c ∈ ds, c.isDigit) ∧ ds ≠ [] ∧
      Text.valueIn 10 ds = e.natAbs := by
    have hd : ∀ c ∈ Nat.toDigits 10 e.natAbs, c.isDigit :=
      fun c => Nat.isDigit_of_mem_toDigits (by decide) (by decide)
    refine ⟨_, rfl, ?_⟩
    split
    · refine ⟨by simpa using hd, by simp, ?_⟩
      exact (Text.valueIn_zeros_append 1 _).trans (valueIn_toDigits _)
    · exact ⟨hd, Nat.toDigits_ne_nil, valueIn_toDigits _⟩
  have hx (neg : Bool) : exponentDigits? neg (ds ++ k) = some (Binary64.signed neg e.natAbs, k) := by
    rw [exponentDigits?, digits_of_ends hd hk]
    obtain ⟨c, ds, rfl⟩ := List.exists_cons_of_ne_nil hne
    simp [hv]
  have hs := signed_natAbs e
  rw [ht]
  split
  · rename_i h
    rw [decide_eq_true h] at hs
    simp [exponent?, hx, hs]
  · rename_i h
    rw [decide_eq_false h] at hs
    simp [exponent?, hx, hs]

/-- The text of a decimal that is so many units: digits around a point, or, perhaps without a point, digits
and an exponent. -/
inductive Spells (x : ℚ) : List Char → Prop where
  | point {ds fs : List Char} (hd : Numeral ds) (hf : fs ≠ []) (hfd : ∀ c ∈ fs, c.isDigit)
      (hx : unitsAt (ds ++ fs) ds.length = x) : Spells x (ds ++ '.' :: fs)
  | scaled {ds fs m : List Char} {e : Int} (hd : Numeral ds)
      (hm : m = [] ∧ fs = [] ∨ m = '.' :: fs ∧ fs ≠ []) (hfd : ∀ c ∈ fs, c.isDigit)
      (hx : unitsAt (ds ++ fs) (e + ds.length) = x) :
      Spells x (ds ++ m ++ exponentText e)

theorem fraction_point {fs r : List Char} (hf : fs ≠ []) (hd : ∀ c ∈ fs, c.isDigit)
    (hr : ∀ c ∈ r.head?, c.isDigit = false) : fraction ('.' :: fs ++ r) = (fs, r) := by
  rw [List.cons_append, fraction, digits_eq_iff.2 ⟨rfl, hd, hr⟩]
  split <;> simp_all

theorem Spells.read {x : ℚ} {s k : List Char} (h : Spells x s) (hk : Ends k) :
    ∃ digits power, units digits power = x ∧
      ∀ neg, readNumber neg (s ++ k) = .ok (.float (.ofDecimal neg digits power), k) := by
  cases h with
  | @point ds fs hd hf hfd hx =>
    refine ⟨Text.valueIn 10 (ds ++ fs), 0 - fs.length, ?_, fun neg => ?_⟩
    · rw [← hx, unitsAt, List.length_append]
      congr 1
      omega
    · rw [List.append_assoc]
      exact readNumber_eq_ok.2 (.point (whole?_numeral hd (by simp))
        (fraction_point hf hfd fun c hc => (hk c hc).1) hf (exponent?_of_ends hk))
  | @scaled ds fs m e hd hm hfd hx =>
    refine ⟨Text.valueIn 10 (ds ++ fs), e - fs.length, ?_, fun neg => ?_⟩
    · rw [← hx, unitsAt, List.length_append]
      congr 1
      omega
    · have he := exponent?_text e hk
      obtain ⟨t, ht⟩ : ∃ t, exponentText e ++ k = 'e' :: t := ⟨_, rfl⟩
      rw [List.append_assoc, List.append_assoc]
      rw [ht] at he ⊢
      obtain ⟨rfl, rfl⟩ | ⟨rfl, hf⟩ := hm
      · exact readNumber_eq_ok.2
          (.scaled (whole?_numeral hd (by simp)) (fraction_of_head (by simp)) he)
      · exact readNumber_eq_ok.2
          (.scaled (whole?_numeral hd (by simp)) (fraction_point hf hfd (by simp)) he)

section

variable {ds : List Char} {point : Int} (hd : ∀ c ∈ ds, c.isDigit)

include hd

theorem isDigit_of_mem_zeros {n : Nat} {fs : List Char} (hf : fs = List.replicate n '0' ++ ds ∨
    fs = ds ++ List.replicate n '0') : ∀ c ∈ fs, c.isDigit := by
  have hz : ∀ c ∈ List.replicate n '0', c.isDigit := fun c hc => by
    rw [List.eq_of_mem_replicate hc]
    rfl
  obtain rfl | rfl := hf
  · exact fun c hc => (List.mem_append.1 hc).elim (hz c) (hd c)
  · exact fun c hc => (List.mem_append.1 hc).elim (hd c) (hz c)

theorem spells_before (hne : ds ≠ []) (h : point ≤ 0) : Spells (unitsAt ds point)
    ('0' :: '.' :: List.replicate (-point).toNat '0' ++ ds) := by
  have hv : unitsAt (List.replicate ((-point).toNat + 1) '0' ++ ds) 1 =
      unitsAt ds point := by
    rw [Binary64.unitsAt_zeros_append]
    congr 1
    omega
  exact .point (.inl rfl) (by simp [hne]) (isDigit_of_mem_zeros hd (.inl rfl)) hv

theorem spells_behind (hne : ds ≠ []) (h0 : ds.head? ≠ some '0') (h : ds.length ≤ point) :
    Spells (unitsAt ds point)
      (ds ++ List.replicate (point - ds.length).toNat '0' ++ ['.', '0']) := by
  have hv : unitsAt (ds ++ List.replicate (point - ds.length).toNat '0' ++
      List.replicate 1 '0') (ds ++ List.replicate (point - ds.length).toNat '0').length =
      unitsAt ds point := by
    rw [Binary64.unitsAt_zeros, Binary64.unitsAt_zeros, List.length_append, List.length_replicate]
    congr 1
    omega
  refine .point (.inr ⟨?_, by simp [hne], isDigit_of_mem_zeros hd (.inr rfl)⟩) (by simp) (by simp) hv
  rwa [List.head?_append_of_ne_nil _ hne]

theorem spells_among (h0 : ds.head? ≠ some '0') (h : 0 < point) (hl : point < ds.length) :
    Spells (unitsAt ds point) (ds.take point.toNat ++ '.' :: ds.drop point.toNat) := by
  have ht : (ds.take point.toNat).length = point.toNat := by
    rw [List.length_take]
    omega
  have hn : ds.take point.toNat ≠ [] := List.ne_nil_of_length_pos (by omega)
  have hf : ds.drop point.toNat ≠ [] := List.ne_nil_of_length_pos (by
    rw [List.length_drop]
    omega)
  have hv : unitsAt (ds.take point.toNat ++ ds.drop point.toNat)
      (ds.take point.toNat).length = unitsAt ds point := by
    rw [List.take_append_drop, ht]
    congr 1
    omega
  refine .point (.inr ⟨?_, hn, fun c hc => hd c (List.mem_of_mem_take hc)⟩) hf
    (fun c hc => hd c (List.mem_of_mem_drop hc)) hv
  rwa [← List.head?_append_of_ne_nil _ hn, List.take_append_drop]

end

/-- Wherever the point is put, the digits keep their value. -/
theorem spells_unsignedText {u : Nat} (hu : spacing u ∣ u) (hp : 0 < u)
    (hl : u < limit) :
    Spells (unitsAt (placed u).1 (placed u).2) (unsignedText u) := by
  obtain ⟨hne, h0, hd⟩ := Binary64.placed_digits hu hp hl
  unfold unsignedText
  rw [if_neg hp.ne']
  obtain ⟨⟨ds, point⟩, hx⟩ : ∃ x, placed u = x := ⟨_, rfl⟩
  rw [hx] at hne h0 hd ⊢
  dsimp only at hne h0 hd ⊢
  split
  · obtain ⟨c, r, rfl⟩ := List.exists_cons_of_ne_nil hne
    have hc : Numeral [c] := .inr ⟨by simpa using h0, by simp, by simpa using hd c (by simp)⟩
    have hv : unitsAt ([c] ++ r) (point - 1 + ([c].length : Nat)) =
        unitsAt (c :: r) point := congrArg _ (Int.sub_add_cancel point 1)
    cases r with
    | nil => exact .scaled hc (.inl ⟨rfl, rfl⟩) (by simp) hv
    | cons d r => exact .scaled hc (.inr ⟨rfl, by simp⟩) (fun c h => hd c (by simp [h])) hv
  · split
    · exact spells_before hd hne ‹_›
    · split
      · exact spells_behind hd hne h0 ‹_›
      · exact spells_among hd h0 (by omega) (by omega)

theorem readNumber_unsignedText (neg : Bool) {u : Nat} (hu : spacing u ∣ u)
    (hl : u < limit) {k : List Char} (hk : Ends k) :
    readNumber neg (unsignedText u ++ k) = .ok (.float (.finite neg u), k) := by
  by_cases h0 : u = 0
  · subst h0
    have hz : Spells 0 (['0'] ++ '.' :: ['0']) :=
      .point (.inl rfl) (by simp) (by simp) (Binary64.units_eq_zero_iff.2 rfl)
    obtain ⟨digits, power, hx, hr⟩ := hz.read hk
    obtain rfl := Binary64.units_eq_zero_iff.1 hx
    exact hr neg
  · have hp := Nat.pos_of_ne_zero h0
    obtain ⟨digits, power, hx, hr⟩ := (spells_unsignedText hu hp hl).read hk
    rw [hr, Binary64.ofDecimal_of_near hu hp hl (hx ▸ Binary64.placed_near hu hp)]

theorem writeFloat_finite (neg : Bool) (u : Nat) : writeFloat (.finite neg u) =
    (if neg then ['-'] else []) ++ unsignedText u := by
  have hw : writeFloat (.finite neg u) = (Binary64.render (.finite neg u)).toList := rfl
  cases neg <;> simp [hw, Binary64.render]

theorem readPlain_float {x : Binary64} (h : x.Valid) {k : List Char} (hk : Ends k) :
    readPlain (writeFloat x ++ k) = .ok (.float x, k) := by
  have hw {w : List Char} (hm : (w, Json.float x) ∈ words) :
      readPlain (w ++ k) = .ok (.float x, k) := by
    have hs : word? (w ++ k) = some (.float x, k) := word?_eq_some.2 ⟨w, hm, rfl⟩
    simp only [readPlain, hs]
  cases x with
  | nan => exact hw (by simp [words, writeFloat])
  | infinite neg => cases neg <;> exact hw (by simp [words, writeFloat])
  | finite neg u =>
    rw [writeFloat_finite, List.append_assoc]
    exact readPlain_sign (readNumber_unsignedText neg h.1 h.2 hk)

end Json.Reader
end CodeAudit
