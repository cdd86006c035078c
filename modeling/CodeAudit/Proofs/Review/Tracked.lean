import CodeAudit.Proofs.Review.Permits
import Mathlib.Data.Multiset.UnionInter

set_option autoImplicit false

namespace CodeAudit

namespace Course

/-- The course with the pieces that are about to ask for a permit, and those that hold one. -/
structure Tracked (n : Nat) (c : Course) (asking calling : Multiset Ticket) : Prop where
  fair : c.Fair n
  asks : asking.Nodup
  submitted : ∀ t, t ∈ asking ↔ c.stage? t = some .submitted
  calls : calling.Nodup
  holding : ∀ t, t ∈ calling ↔ c.stage? t = some .calling
  held : calling.card = c.held

variable {n : Nat} {c : Course} {asking calling : Multiset Ticket} {t : Ticket}

theorem Tracked.take (h : c.Tracked n (t ::ₘ asking) calling) {k : Nat} (hf : c.free = k + 1) :
    (c.request t).Tracked n asking (t ::ₘ calling) := by
  have ht := (h.submitted t).1 (by simp)
  have ha := Multiset.nodup_cons.1 h.asks
  have hn : t ∉ calling := by simp [h.holding, ht]
  have hh : (setStage .calling t c).held + 0 = c.held + 1 := held_setStage ht .calling
  have hs (u : Ticket) : (c.request t).stage? u = if u = t then some .calling else c.stage? u := by
    rw [request_of_free hf]
    exact stage?_setStage ht .calling u
  refine ⟨request_of_free hf t ▸ h.fair.take ht hf, ha.2, fun u => ?_, Multiset.nodup_cons.2 ⟨hn, h.calls⟩,
    fun u => ?_, ?_⟩
  · by_cases hu : u = t
    · simp [hs, hu, ha.1]
    · simp [hs, hu, ← h.submitted]
  · by_cases hu : u = t <;> simp [hs, hu, h.holding]
  · rw [Multiset.card_cons, request_of_free hf]
    exact (congrArg (· + 1) h.held).trans hh.symm

theorem Tracked.wait (h : c.Tracked n (t ::ₘ asking) calling) (hf : c.free = 0) :
    (c.request t).Tracked n asking calling := by
  have ht := (h.submitted t).1 (by simp)
  have ha := Multiset.nodup_cons.1 h.asks
  have hn : t ∉ calling := by simp [h.holding, ht]
  have hh : (setStage .waiting t c).held + 0 = c.held + 0 := held_setStage ht .waiting
  have hs (u : Ticket) : (c.request t).stage? u = if u = t then some .waiting else c.stage? u := by
    rw [request_of_full hf]
    exact stage?_setStage ht .waiting u
  refine ⟨request_of_full hf t ▸ h.fair.wait ht hf, ha.2, fun u => ?_, h.calls, fun u => ?_, ?_⟩
  · by_cases hu : u = t
    · simp [hs, hu, ha.1]
    · simp [hs, hu, ← h.submitted]
  · by_cases hu : u = t
    · simp [hs, hu, hn]
    · simp [hs, hu, h.holding]
  · rw [request_of_full hf]
    exact h.held.trans hh.symm

theorem Tracked.giveBack (h : c.Tracked n asking (t ::ₘ calling)) (hl : c.line = [])
    (x : Except Failure Outcome) : (c.release x t).Tracked n asking calling := by
  have ht := (h.holding t).1 (by simp)
  have hc := Multiset.nodup_cons.1 h.calls
  have hn : t ∉ asking := by simp [h.submitted, ht]
  have hh : (setStage (.ended x) t c).held + 1 = c.held + 0 := held_setStage ht (.ended x)
  have hs (u : Ticket) : (c.release x t).stage? u = if u = t then some (.ended x) else c.stage? u := by
    rw [release_of_empty hl]
    exact stage?_setStage ht (.ended x) u
  refine ⟨release_of_empty hl x t ▸ h.fair.giveBack ht hl x, h.asks, fun u => ?_, hc.2, fun u => ?_, ?_⟩
  · by_cases hu : u = t
    · simp [hs, hu, hn]
    · simp [hs, hu, h.submitted]
  · by_cases hu : u = t
    · simp [hs, hu, hc.1]
    · simp [hs, hu, ← h.holding]
  · rw [release_of_empty hl]
    have hheld := h.held
    rw [Multiset.card_cons] at hheld
    change calling.card = (setStage (.ended x) t c).held
    omega

theorem Tracked.handOver (h : c.Tracked n asking (t ::ₘ calling)) {u : Ticket} {line : List Ticket}
    (hl : c.line = u :: line) (x : Except Failure Outcome) :
    (c.release x t).Tracked n asking (u ::ₘ calling) := by
  have ht := (h.holding t).1 (by simp)
  rcases h.fair.first ht hl x with ⟨hut, hu, hu'⟩
  have hc := Multiset.nodup_cons.1 h.calls
  have hnt : t ∉ asking := by simp [h.submitted, ht]
  have hnu : u ∉ asking := by simp [h.submitted, hu]
  have hnu' : u ∉ calling := fun hm => by
    have := (h.holding u).1 (by simp [hm])
    simp [hu] at this
  have hh : (setStage (.ended x) t c).held + 1 = c.held + 0 := held_setStage ht (.ended x)
  have hh' : (setStage .calling u (setStage (.ended x) t c)).held + 0 =
      (setStage (.ended x) t c).held + 1 := held_setStage hu' .calling
  have hs (v : Ticket) : (c.release x t).stage? v =
      if v = u then some .calling else if v = t then some (.ended x) else c.stage? v := by
    rw [release_of_line hl, ← stage?_setStage ht]
    exact stage?_setStage hu' .calling v
  refine ⟨release_of_line hl x t ▸ h.fair.handOver ht hl x, h.asks, fun v => ?_,
    Multiset.nodup_cons.2 ⟨hnu', hc.2⟩, fun v => ?_, ?_⟩
  · by_cases hvu : v = u
    · simp [hs, hvu, hnu]
    · by_cases hvt : v = t
      · simp [hs, hvt, hut.symm, hnt]
      · simp [hs, hvu, hvt, h.submitted]
  · by_cases hvu : v = u
    · simp [hs, hvu]
    · by_cases hvt : v = t
      · simp [hs, hvt, hut.symm, hc.1]
      · simp [hs, hvu, hvt, ← h.holding]
  · rw [release_of_line hl]
    have hheld := h.held
    rw [Multiset.card_cons] at hheld ⊢
    change calling.card + 1 = (setStage .calling u (setStage (.ended x) t c)).held
    omega

theorem mem_tickets {i : Nat} : t ∈ c.tickets i ↔ t.file = i ∧ ∃ s, c.stage? t = some s := by
  rcases t with ⟨j, k⟩
  cases hf : c.files[i]? with
  | none =>
    simp [tickets, hf, stage?_eq]
    intro hj
    simp [hj, hf]
  | some f =>
    simp [tickets, hf, stage?_eq, List.mk_mem_zipIdx_iff_getElem?]
    constructor
    · rintro ⟨⟨p, s, hp⟩, rfl⟩
      exact ⟨rfl, s, by simp [hf, hp]⟩
    · rintro ⟨rfl, s, hs⟩
      simp [hf] at hs
      rcases hs with ⟨p, hp⟩
      exact ⟨⟨p, s, hp⟩, rfl⟩

theorem nodup_tickets (c : Course) (i : Nat) : (c.tickets i).Nodup := by
  have hm (b : List (Chunk × Stage)) : b.zipIdx.map (fun p => (⟨i, p.2⟩ : Ticket)) =
      (List.range' 0 b.length).map fun k => ⟨i, k⟩ := by
    rw [← List.zipIdx_map_snd 0 b, List.map_map]
    rfl
  rw [tickets, hm]
  refine List.Nodup.map (fun k k' h => ?_) List.nodup_range'
  cases h
  rfl

theorem Tracked.advance {i : Nat} {f : FileReview} (h : c.Tracked n asking calling)
    (hf : c.files[i]? = some f) (hd : f.isDue) : (c.advance i).Tracked n
      (asking + (if f.isFailed then [] else (c.advance i).tickets i : List Ticket)) calling := by
  have hcalling (u : Ticket) : u ∈ calling ↔ (c.advance i).stage? u = some .calling :=
    (h.holding u).trans (stage?_advance hf hd (.inr rfl) u).symm
  have hfair := h.fair.advance hf hd
  have hheld : calling.card = (c.advance i).held := h.held.trans (held_advance hf hd).symm
  have hother (u : Ticket) (hu : u.file ≠ i) : (c.advance i).stage? u = c.stage? u := by
    rw [stage?_eq, stage?_eq, Course.advance, List.getElem?_modify]
    simp [Ne.symm hu]
  have hown (u : Ticket) (hu : u.file = i) :
      (c.advance i).stage? u = (f.advance.batch[u.piece]?).map (·.2) := by
    rw [stage?_eq, Course.advance, List.getElem?_modify]
    simp [hu, hf]
  cases hfailed : f.isFailed with
  | true =>
    simp only [if_true, Multiset.coe_nil, Multiset.add_zero]
    refine ⟨hfair, h.asks, fun u => ?_, h.calls, hcalling, hheld⟩
    rw [h.submitted]
    by_cases hi : u.file = i
    · rw [hown u hi, FileReview.batch_of_failed hd hfailed]
      simp [stage?_eq, hi, hf]
    · rw [hother u hi]
  | false =>
    simp only [Bool.false_eq_true, if_false]
    have hended := FileReview.isEnded_of_isDue hd hfailed
    have hnone (u : Ticket) (hu : u ∈ asking) : u.file ≠ i := by
      rintro rfl
      rcases stage?_eq_some.1 ((h.submitted u).1 hu) with ⟨g, p, hg, hp⟩
      cases hf.symm.trans hg
      rcases FileReview.stage_of_isEnded hended (List.mem_of_getElem? hp) with ⟨x, hx⟩
      cases hx
    have hnew (u : Ticket) (hi : u.file = i) (s : Stage) (hs : (c.advance i).stage? u = some s) :
        s = .submitted := by
      rw [hown u hi, Option.map_eq_some_iff] at hs
      rcases hs with ⟨p, hp, rfl⟩
      exact FileReview.submitted_of_advance hd hfailed p (List.mem_of_getElem? hp)
    refine ⟨hfair, ?_, fun u => ?_, h.calls, hcalling, hheld⟩
    · refine Multiset.nodup_add.2 ⟨h.asks, nodup_tickets _ i, Multiset.disjoint_left.2 ?_⟩
      exact fun hu hu' => hnone _ hu (mem_tickets.1 hu').1
    · simp [mem_tickets]
      by_cases hi : u.file = i
      · have hna : u ∉ asking := fun hu => hnone u hu hi
        simp [hi, hna]
        refine ⟨?_, fun hs => ⟨_, hs⟩⟩
        rintro ⟨s, hs⟩
        exact hnew u hi s hs ▸ hs
      · simp [hi, hother u hi, h.submitted]

end Course
end CodeAudit
