import CodeAudit.Proofs.Number.Spelling
import CodeAudit.Proofs.Rule.Verdict

set_option autoImplicit false

namespace CodeAudit.Rule
open Binary64 (one Nearest)
open Number (IsSpelling)
variable {p : Parsed} {x : Place} {n m : Nat}

theorem truncate?_whole (m : Nat) : (Binary64.finite false (m * one)).truncate? = some (m : Int) := by
  rw [Binary64.truncate?, Nat.mul_div_cancel _ Binary64.one_pos]
  rfl

theorem isWhole_whole (m : Nat) : (Binary64.finite false (m * one)).isWhole = true := by
  rw [Binary64.isWhole, Nat.mul_mod_left]
  rfl

theorem isCommon_whole (m : Nat) : isCommon (.finite false (m * one)) = commonNumbers.contains (m : Int) := by
  rw [isCommon, truncate?_whole, isWhole_whole]
  exact Bool.true_and _

theorem shown_whole (m : Nat) : Number.shown (.finite false (m * one)) = toString m := by
  rw [Number.shown, truncate?_whole, isWhole_whole]
  rfl

/-- Where there is rounding, no number is common, neither before nor after it. -/
theorem mem_common_iff (hexact : n ≤ 2 ^ 53 → m = n) (hlarge : 2 ^ 53 ≤ n → 2 ^ 53 ≤ m) :
    (m : Int) ∈ commonNumbers ↔ (n : Int) ∈ commonNumbers := by
  by_cases hn : n ≤ 2 ^ 53
  · rw [hexact hn]
  · have hmost : ∀ i ∈ commonNumbers, i ≤ 1000 := by decide
    have hnone {k : Nat} (hk : 2 ^ 53 ≤ k) : (k : Int) ∉ commonNumbers := fun h => absurd (hmost _ h) (by omega)
    exact iff_of_false (hnone (hlarge (by omega))) (hnone (by omega))

theorem magicNumberAt_whole
    (h : Number.literal? (p.between x.node.start x.node.stop) = .ok (some (.finite false (m * one)))) :
    magicNumberAt p x = .ok (if (m : Int) ∈ commonNumbers ∨ isExcused x then []
      else [p.reportLine x (magicNotice (.finite false (m * one)))]) := by
  simp only [magicNumberAt, h, isCommon_whole, isExcused, Bool.or_eq_true, List.contains_iff_mem, or_assoc]

theorem flatMap_unless {α β : Type} (b : α → Bool) (f : α → β) (xs : List α) :
    (xs.flatMap fun x => if b x then [] else [f x]) = (xs.filter (!b ·)).map f := by
  rw [← flatMap_if]
  refine List.flatMap_congr fun x _ => ?_
  cases b x <;> rfl

theorem magicNumbers_whole (h : ∀ x ∈ p.numbers,
    Number.literal? (p.between x.node.start x.node.stop) = .ok (some (.finite false (m * one)))) :
    magicNumbers p = .ok (if (m : Int) ∈ commonNumbers then []
      else (p.numbers.filter (!isExcused ·)).map (p.reportLine · (magicNotice (.finite false (m * one))))) := by
  have hsure : ∀ x ∈ p.numbers, ∀ e, magicNumberAt p x ≠ .error e := fun x hx e he => by
    cases (h x hx).symm.trans (magicNumberAt_error.1 he)
  have hsaid : ∀ x ∈ p.numbers, verdict p x = if (m : Int) ∈ commonNumbers ∨ isExcused x then []
      else [p.reportLine x (magicNotice (.finite false (m * one)))] := fun x hx => by
    rw [verdict, magicNumberAt_whole (h x hx)]
    rfl
  rw [magicNumbers_eq hsure, List.flatMap_congr hsaid]
  by_cases hm : (m : Int) ∈ commonNumbers
  · simp [hm]
  · simp only [hm, false_or, if_false, flatMap_unless]

/-- Every spelling of a number that has a double is read as the double nearest to it, which is a whole number, and the
same one up to 2^53. Wherever a number stands, what there is to say of it is told by its value and its place, and names
the value: of a file in which all numbers are spellings of one, none is reported, or all that are not excused are, under
one title. -/
theorem magicNumbers_spelled (n : Nat) (h : n < 2 ^ 1024 - 2 ^ 970) :
    ∃ m, Nearest (n * one) (m * one) ∧ (n ≤ 2 ^ 53 → m = n) ∧
      (∀ s, IsSpelling n s → Number.literal? s = .ok (some (.finite false (m * one)))) ∧
      (magicNotice (.finite false (m * one))).title = "Magic number: " ++ toString m ∧
      (∀ p x, IsSpelling n (p.between x.node.start x.node.stop) →
        magicNumberAt p x = .ok (if (n : Int) ∈ commonNumbers ∨ isExcused x then []
          else [p.reportLine x (magicNotice (.finite false (m * one)))])) ∧
      ∀ p, (∀ x ∈ p.numbers, IsSpelling n (p.between x.node.start x.node.stop)) →
        magicNumbers p = .ok (if (n : Int) ∈ commonNumbers then []
          else (p.numbers.filter (!isExcused ·)).map (p.reportLine · (magicNotice (.finite false (m * one))))) := by
  obtain ⟨m, hround, hnearest, hexact, hlarge⟩ := Binary64.ofNat_nearest h
  have hliteral (s : List Char) (hs : IsSpelling n s) : Number.literal? s = .ok (some (.finite false (m * one))) :=
    hround ▸ Number.literal?_spelling h hs
  have htitle : (magicNotice (.finite false (m * one))).title =
      "Magic number: " ++ Number.shown (.finite false (m * one)) := rfl
  refine ⟨m, hnearest, hexact, hliteral, ?_, fun p x hx => ?_, fun p hp => ?_⟩
  · rw [htitle, shown_whole]
  · simp only [magicNumberAt_whole (hliteral _ hx), mem_common_iff hexact hlarge]
  · simp only [magicNumbers_whole fun x hx => hliteral _ (hp x hx), mem_common_iff hexact hlarge]

/-- A constant and a variable in a file, both 42: the variable is reported, as 42. -/
theorem magicNumbers_spelled_beside :
    42 < 2 ^ 1024 - 2 ^ 970 ∧ (∀ x ∈ (timeoutFile "0X2_A".toList).numbers,
      IsSpelling 42 ((timeoutFile "0X2_A".toList).between x.node.start x.node.stop)) ∧
    Number.literal? "0X2_A".toList = Number.literal? "052n".toList ∧
    magicNumbers (timeoutFile "0X2_A".toList) =
      .ok (((timeoutFile "0X2_A".toList).numbers.filter (!isExcused ·)).map
        ((timeoutFile "0X2_A".toList).reportLine · (magicNotice (.finite false (42 * one))))) ∧
    (magicNotice (.finite false (42 * one))).title = "Magic number: 42" ∧
    ((timeoutFile "0X2_A".toList).numbers.filter (!isExcused ·)).length = 1 := by
  have hrange : 42 < 2 ^ 1024 - 2 ^ 970 := by decide +kernel
  have hcapital : IsSpelling 42 "0X2_A".toList :=
    ⟨_, .announced (by decide : ('x', 16) ∈ Number.marks) 0, .inl (by decide)⟩
  have hold : IsSpelling 42 "052n".toList := ⟨_, .oldOctal 0, .inr (by decide)⟩
  have htexts : ∀ x ∈ (timeoutFile "0X2_A".toList).numbers,
      (timeoutFile "0X2_A".toList).between x.node.start x.node.stop ∈ ["0X2_A".toList, "42".toList] := by decide +kernel
  have hall : ∀ x ∈ (timeoutFile "0X2_A".toList).numbers,
      IsSpelling 42 ((timeoutFile "0X2_A".toList).between x.node.start x.node.stop) := by
    intro x hx
    obtain h | h := List.mem_pair.1 (htexts x hx)
    · rw [h]
      exact hcapital
    · rw [h]
      exact ⟨_, .decimal, .inl (by decide)⟩
  obtain ⟨m, -, hexact, hliteral, htitle, -, hfile⟩ := magicNumbers_spelled 42 hrange
  obtain rfl : m = 42 := hexact (by decide)
  refine ⟨hrange, hall, (hliteral _ hcapital).trans (hliteral _ hold).symm, ?_, htitle, by decide +kernel⟩
  rw [hfile _ hall, if_neg (by decide)]

end CodeAudit.Rule
