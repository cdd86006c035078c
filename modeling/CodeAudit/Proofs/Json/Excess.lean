import CodeAudit.Proofs.Json.RoundTrip

set_option autoImplicit false

namespace CodeAudit.Json

namespace Reader

theorem readNumber_long_numeral {neg : Bool} {ds r : List Char} (hn : Numeral ds)
    (hl : maxDigits < ds.length) (hr : Ends r) :
    readNumber neg (ds ++ r) = .error (.excess .digits) := by
  have hw := whole?_numeral hn fun c hc => (hr c hc).1
  have hf : fraction r = ([], r) := fraction_of_head fun h => (hr '.' (by simp [h])).2.1 rfl
  simp only [readNumber, hw, hf, exponent?_of_ends hr, Option.getD_none, List.isEmpty_nil,
    Option.isNone_none, Bool.and_self, if_true]
  exact if_neg (by omega)

theorem readValue_long_numeral {d : Char} {ds r : List Char} (hn : Numeral (d :: ds)) (hd : d.isDigit)
    (hl : maxDigits < (d :: ds).length) (hr : Ends r) (fuel room : Nat) :
    readValue (fuel + 1) room (d :: (ds ++ r)) = .error (.excess .digits) := by
  have hne (c : Char) (hc : c.isDigit = false) : d ≠ c := by
    rintro rfl
    simp [hd] at hc
  have hp : readPlain (d :: (ds ++ r)) = .error (.excess .digits) := by
    have := hne '-' rfl
    simp only [readPlain, word?_of_digit hd]
    split
    · simp_all
    · exact readNumber_long_numeral hn hl hr
  have := hne '"' rfl
  have := hne '[' rfl
  have := hne '\x7b' rfl
  unfold readValue
  split <;> simp_all

end Reader

open Reader

variable {limit : Nat}

theorem readAt_ones (hl : 0 < limit) {n : Nat} (h : maxDigits ≤ n) :
    readAt limit ('[' :: '1' :: List.replicate n '1' ++ [']']) = .error (.excess .digits) := by
  obtain ⟨limit, rfl, -⟩ := exists_fuel hl
  obtain ⟨fuel, hf⟩ : ∃ m, 2 * ('[' :: '1' :: List.replicate n '1' ++ [']']).length + 2 = m + 3 :=
    ⟨2 * ('[' :: '1' :: List.replicate n '1' ++ [']']).length - 1, by simp; omega⟩
  have hn : Numeral ('1' :: List.replicate n '1') := by
    refine .inr ⟨by simp, by simp, fun c hc => ?_⟩
    rw [← List.replicate_succ, List.mem_replicate] at hc
    rw [hc.2]
    rfl
  have hv := readValue_long_numeral hn rfl (by simp; omega) (.cons [] (by decide) : Ends [']']) fuel limit
  have hs : skip ('1' :: (List.replicate n '1' ++ [']'])) = '1' :: (List.replicate n '1' ++ [']']) :=
    skip_cons rfl _
  rw [readAt, hf, List.cons_append, List.cons_append]
  refine readValue_of_items (fun t ht => ?_) (readItems_excess.2 (.first (hs.symm ▸ hv)))
  rw [hs] at ht
  cases (List.cons.inj ht).1

end CodeAudit.Json
