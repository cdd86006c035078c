import CodeAudit.Merge
import Mathlib.Data.List.Basic
import Mathlib.Data.List.Induction

/-!
Findings without repetitions. What is kept of a list depends on the keys in front of it as a set, so that
a finding whose key has been there may be left out. So parts of a list may be freed of their repetitions first.
-/
set_option autoImplicit false

namespace CodeAudit.Findings

theorem fresh_congr {seen seen' : List (String × Nat × String)} (h : ∀ k, k ∈ seen ↔ k ∈ seen')
    (fs : List Finding) : fresh seen fs = fresh seen' fs := by
  induction fs generalizing seen seen' with
  | nil => rfl
  | cons f fs ih =>
    have hc : seen.contains f.key = seen'.contains f.key := by simp [h]
    have hn := ih (show ∀ k, k ∈ f.key :: seen ↔ k ∈ f.key :: seen' by simp [h])
    rw [fresh, fresh, hc, ih h, hn]

theorem fresh_append (seen : List (String × Nat × String)) (fs gs : List Finding) :
    fresh seen (fs ++ gs) = fresh seen fs ++ fresh (fs.map Finding.key ++ seen) gs := by
  induction fs generalizing seen with
  | nil => rfl
  | cons f fs ih =>
    rw [List.cons_append, fresh, fresh]
    split
    · rename_i hf
      rw [ih]
      congr 1
      exact fresh_congr (by simp_all) gs
    · rw [ih, List.cons_append]
      congr 2
      exact fresh_congr (by simp [or_left_comm]) gs

theorem dedupe_append_cons {fs : List Finding} {g : Finding} (h : g.key ∈ fs.map Finding.key)
    (gs : List Finding) : dedupe (fs ++ g :: gs) = dedupe (fs ++ gs) := by
  rw [dedupe, dedupe, fresh_append, fresh_append, fresh, if_pos (by simpa using h)]

theorem exists_key_fresh {seen : List (String × Nat × String)} {fs : List Finding} {f : Finding}
    (h : f ∈ fs) : f.key ∈ seen ∨ ∃ g ∈ fresh seen fs, g.key = f.key := by
  induction fs generalizing seen with
  | nil => cases h
  | cons g fs ih =>
    rw [fresh]
    split
    · rename_i hg
      obtain rfl | h := List.mem_cons.1 h
      · exact .inl (by simpa using hg)
      · exact ih h
    · obtain rfl | h := List.mem_cons.1 h
      · exact .inr ⟨f, by simp, rfl⟩
      · obtain hk | ⟨k, hk, he⟩ := ih h
        · obtain hk | hk := List.mem_cons.1 hk
          · exact .inr ⟨g, by simp, hk.symm⟩
          · exact .inl hk
        · exact .inr ⟨k, List.mem_cons_of_mem g hk, he⟩

theorem exists_key_dedupe {fs : List Finding} {f : Finding} (h : f ∈ fs) :
    ∃ g ∈ dedupe fs, g.key = f.key :=
  (exists_key_fresh h).resolve_left (List.not_mem_nil)

theorem mem_of_mem_fresh {seen : List (String × Nat × String)} {fs : List Finding} {f : Finding}
    (h : f ∈ fresh seen fs) : f ∈ fs ∧ f.key ∉ seen := by
  induction fs generalizing seen with
  | nil => cases h
  | cons g fs ih =>
    rw [fresh] at h
    split at h
    · obtain ⟨hf, hk⟩ := ih h
      exact ⟨List.mem_cons_of_mem g hf, hk⟩
    · rename_i hg
      obtain rfl | h := List.mem_cons.1 h
      · exact ⟨List.mem_cons_self, by simpa using hg⟩
      · obtain ⟨hf, hk⟩ := ih h
        exact ⟨List.mem_cons_of_mem g hf, fun hmem => hk (List.mem_cons_of_mem _ hmem)⟩

theorem mem_of_mem_dedupe {fs : List Finding} {f : Finding} (h : f ∈ dedupe fs) : f ∈ fs :=
  (mem_of_mem_fresh h).1

theorem nodup_fresh (seen : List (String × Nat × String)) (fs : List Finding) :
    ((fresh seen fs).map Finding.key).Nodup := by
  induction fs generalizing seen with
  | nil => exact List.nodup_nil
  | cons g fs ih =>
    rw [fresh]
    split
    · exact ih seen
    · refine List.nodup_cons.2 ⟨fun hmem => ?_, ih _⟩
      obtain ⟨f, hf, hk⟩ := List.mem_map.1 hmem
      exact (mem_of_mem_fresh hf).2 (by simp [hk])

theorem nodup_dedupe (fs : List Finding) : ((dedupe fs).map Finding.key).Nodup := nodup_fresh [] fs

theorem fresh_filter (keys seen : List (String × Nat × String)) (fs : List Finding) :
    fresh (keys ++ seen) fs = (fresh seen fs).filter (·.key ∉ keys) := by
  induction fs generalizing seen with
  | nil => rfl
  | cons f fs ih =>
    have hnext : fresh (f.key :: (keys ++ seen)) fs = (fresh (f.key :: seen) fs).filter (·.key ∉ keys) := by
      rw [← ih]
      exact fresh_congr (by simp [or_left_comm]) fs
    by_cases hseen : f.key ∈ seen
    · simp [fresh, hseen, ih]
    · by_cases hkey : f.key ∈ keys
      · have hsame : fresh (keys ++ seen) fs = fresh (f.key :: (keys ++ seen)) fs :=
          fresh_congr (by simp [hkey]) fs
        simp [fresh, hseen, hkey, hsame, hnext]
      · simp [fresh, hseen, hkey, hnext]

theorem dedupe_append (fs gs : List Finding) :
    dedupe (fs ++ gs) = dedupe fs ++ (dedupe gs).filter (·.key ∉ fs.map Finding.key) := by
  rw [dedupe, fresh_append, fresh_filter]
  rfl

theorem dedupe_concat (fs : List Finding) (f : Finding) :
    dedupe (fs ++ [f]) = dedupe fs ++ if f.key ∈ fs.map Finding.key then [] else [f] := by
  have hone : dedupe [f] = [f] := rfl
  rw [dedupe_append, hone]
  by_cases hf : f.key ∈ fs.map Finding.key
  · rw [if_pos hf, List.filter_cons_of_neg (by simpa using hf), List.filter_nil]
  · rw [if_neg hf, List.filter_cons_of_pos (by simpa using hf), List.filter_nil]

/-- What is kept are the findings before which their key does not occur. -/
theorem dedupe_eq_firsts (fs : List Finding) :
    dedupe fs = (fs.zipIdx.filter fun p => (fs.take p.2).all fun g => g.key != p.1.key).map Prod.fst := by
  induction fs using List.reverseRecOn with
  | nil => rfl
  | append_singleton fs f ih =>
    have hfront : (fs.zipIdx.filter fun p => ((fs ++ [f]).take p.2).all fun g => g.key != p.1.key) =
        fs.zipIdx.filter fun p => (fs.take p.2).all fun g => g.key != p.1.key := by
      refine List.filter_congr fun p hp => ?_
      have hlt : p.2 < 0 + fs.length := List.snd_lt_add_of_mem_zipIdx hp
      rw [List.take_append_of_le_length (by omega)]
    have hlast : (((fs ++ [f]).take fs.length).all fun g => g.key != f.key) = decide (f.key ∉ fs.map Finding.key) := by
      rw [List.take_left, Bool.eq_iff_iff]
      simp
    rw [dedupe_concat, List.zipIdx_append, List.filter_append, List.map_append, hfront, ← ih, List.zipIdx_singleton,
      Nat.zero_add, List.filter_cons, hlast]
    by_cases hf : f.key ∈ fs.map Finding.key <;> simp [hf]

theorem mem_map_dedupe {fs : List Finding} {k : String × Nat × String} :
    k ∈ (dedupe fs).map Finding.key ↔ k ∈ fs.map Finding.key := by
  simp only [List.mem_map]
  constructor
  · intro ⟨f, hf, hk⟩
    exact ⟨f, mem_of_mem_dedupe hf, hk⟩
  · intro ⟨f, hf, hk⟩
    obtain ⟨g, hg, hgk⟩ := exists_key_dedupe hf
    exact ⟨g, hg, hgk.trans hk⟩

theorem dedupe_of_nodup {fs : List Finding} (h : (fs.map Finding.key).Nodup) : dedupe fs = fs := by
  induction fs using List.reverseRecOn with
  | nil => rfl
  | append_singleton fs f ih =>
    rw [List.map_append, List.nodup_append] at h
    have hf : f.key ∉ fs.map Finding.key := fun hmem => h.2.2 _ hmem _ List.mem_cons_self rfl
    rw [dedupe_concat, ih h.1, if_neg hf]

theorem dedupe_dedupe (fs : List Finding) : dedupe (dedupe fs) = dedupe fs := dedupe_of_nodup (nodup_dedupe fs)

theorem dedupe_append_dedupe (fs gs : List Finding) : dedupe (dedupe fs ++ dedupe gs) = dedupe (fs ++ gs) := by
  simp only [dedupe_append, dedupe_dedupe, mem_map_dedupe]

theorem dedupe_flatMap_dedupe (batches : List (List Finding)) :
    dedupe (batches.flatMap dedupe) = dedupe batches.flatten := by
  induction batches with
  | nil => rfl
  | cons b batches ih =>
    rw [List.flatMap_cons, List.flatten_cons, ← dedupe_append_dedupe, dedupe_dedupe, ih, dedupe_append_dedupe]

/-- What is kept of a list are the findings before which no other has their key: each key that occurs, once. It does not
matter whether parts of the list have been freed of repetitions before, and of its second part those findings are kept
whose key does not occur in the first. -/
theorem dedupe_keeps_firsts (fs : List Finding) :
    dedupe fs = (fs.zipIdx.filter fun p => (fs.take p.2).all fun g => g.key != p.1.key).map Prod.fst ∧
    ((dedupe fs).map Finding.key).Nodup ∧
    (∀ k, k ∈ (dedupe fs).map Finding.key ↔ k ∈ fs.map Finding.key) ∧
    dedupe (dedupe fs) = dedupe fs ∧
    (∀ gs, dedupe (fs ++ gs) = dedupe (dedupe fs ++ dedupe gs) ∧
      dedupe (fs ++ gs) = dedupe fs ++ (dedupe gs).filter (·.key ∉ fs.map Finding.key)) ∧
    ∀ batches : List (List Finding), dedupe (batches.flatMap dedupe) = dedupe batches.flatten :=
  ⟨dedupe_eq_firsts fs, nodup_dedupe fs, fun _ => mem_map_dedupe, dedupe_dedupe fs,
    fun gs => ⟨(dedupe_append_dedupe fs gs).symm, dedupe_append fs gs⟩, dedupe_flatMap_dedupe⟩

end CodeAudit.Findings
