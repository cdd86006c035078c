import CodeAudit.Proofs.Json.Reading

set_option autoImplicit false

namespace CodeAudit

namespace Fields

theorem mem_put {n : LooseText} {v : Json} {fs : Fields} {f : LooseText × Json}
    (h : f ∈ fs.put n v) : f ∈ fs ∨ f = (n, v) := by
  induction fs with
  | nil => exact .inr (List.mem_singleton.1 h)
  | cons g fs ih =>
    obtain ⟨m, w⟩ := g
    rw [put] at h
    split at h
    · rename_i he
      subst he
      obtain rfl | h := List.mem_cons.1 h
      · exact .inr rfl
      · exact .inl (by simp [h])
    · obtain rfl | h := List.mem_cons.1 h
      · exact .inl (by simp)
      · obtain h | h := ih h
        · exact .inl (by simp [h])
        · exact .inr h

end Fields

namespace Json

mutual

/-- How many lists and objects of a value lie inside each other. -/
def nesting : Json → Nat
  | .array xs => nestingItems xs + 1
  | .object fs => nestingFields fs + 1
  | _ => 0

def nestingItems : List Json → Nat
  | [] => 0
  | x :: xs => max (nesting x) (nestingItems xs)

def nestingFields : List (LooseText × Json) → Nat
  | [] => 0
  | (_, v) :: fs => max (nesting v) (nestingFields fs)

end

theorem nestingItems_le_iff {xs : List Json} {n : Nat} : nestingItems xs ≤ n ↔ ∀ x ∈ xs, x.nesting ≤ n := by
  induction xs with
  | nil => simp [nestingItems]
  | cons x xs ih => simp [nestingItems, Nat.max_le, ih]

theorem nestingFields_le_iff {fs : Fields} {n : Nat} :
    nestingFields fs ≤ n ↔ ∀ f ∈ fs, f.2.nesting ≤ n := by
  induction fs with
  | nil => simp [nestingFields]
  | cons f fs ih => simp [nestingFields, Nat.max_le, ih]

namespace Reader

theorem readPlain_scalar {s r : List Char} {v : Json} (h : readPlain s = .ok (v, r)) :
    v.nesting = 0 ∧ ∀ t, v ≠ .string t := by
  have hn {neg : Bool} {s : List Char} (h : readNumber neg s = .ok (v, r)) :
      v.nesting = 0 ∧ ∀ t, v ≠ .string t := by
    cases readNumber_eq_ok.1 h <;> simp [nesting]
  unfold readPlain at h
  split at h
  · rename_i x hw
    cases h
    obtain ⟨w, hm, rfl⟩ := word?_eq_some.1 hw
    cases v <;> simp_all [words, nesting]
  · split at h
    · exact hn h
    · exact hn h

/-- What is read lies no deeper than there was room for. -/
theorem read_nesting (fuel : Nat) :
    (∀ {room s v r}, readValue fuel room s = .ok (v, r) → v.nesting ≤ room) ∧
    (∀ {room s xs r}, readItems fuel room s = .ok (xs, r) → ∀ x ∈ xs, x.nesting ≤ room) ∧
    (∀ {room seen s fs r}, readFields fuel room seen s = .ok (fs, r) →
      (∀ f ∈ seen, f.2.nesting ≤ room) → ∀ f ∈ fs, f.2.nesting ≤ room) := by
  induction fuel with
  | zero => simp [readValue, readItems, readFields]
  | succ fuel ih =>
    obtain ⟨hv, hi, hf⟩ := ih
    refine ⟨fun h => ?_, fun h => ?_, fun h hseen => ?_⟩
    · cases readValue_succ.1 h with
      | string | emptyArray | emptyObject => simp [nesting, nestingItems, nestingFields]
      | array _ h₁ => simpa [nesting, nestingItems_le_iff] using hi h₁
      | object _ h₁ => simpa only [nesting, Nat.add_le_add_iff_right, nestingFields_le_iff] using hf h₁ (by simp)
      | plain _ _ _ h₁ => simp [(readPlain_scalar h₁).1]
    · cases readItems_succ.1 h with
      | last h₁ => simpa using hv h₁
      | more h₁ _ h₃ => exact List.forall_mem_cons.2 ⟨hv h₁, hi h₃⟩
    · cases readFields_succ.1 h with
      | last _ _ h₃ =>
        intro f hm
        obtain hm | rfl := Fields.mem_put hm
        · exact hseen f hm
        · exact hv h₃
      | more _ _ h₃ _ h₅ =>
        refine hf h₅ fun f hm => ?_
        obtain hm | rfl := Fields.mem_put hm
        · exact hseen f hm
        · exact hv h₃

end Reader

theorem readAt_nesting {limit : Nat} {s r : List Char} {v : Json} (h : readAt limit s = .ok (v, r)) :
    v.nesting ≤ limit := (Reader.read_nesting _).1 h

end Json
end CodeAudit
