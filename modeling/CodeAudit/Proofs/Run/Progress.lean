import CodeAudit.Proofs.Number.Order
import CodeAudit.Proofs.Run.Trace

set_option autoImplicit false

namespace CodeAudit.Run
open Binary64

theorem ofNat_thirty : Binary64.ofNat 30 = .finite false (30 * one) := by decide +kernel

theorem spacing_one : spacing one ∣ one := by decide +kernel

theorem spacing_thirty : spacing (30 * one) ∣ 30 * one := by decide +kernel

theorem thirty_lt_limit : 30 * one < limit := by decide +kernel

def shareUnits (done total : Nat) : Nat := roundUnits (roundUnits (done * one) total * (30 * one)) one

theorem roundUnits_share {done total : Nat} (h : done ≤ total) (ht : 0 < total) :
    roundUnits (done * one) total ≤ one := by
  have hone := roundUnits_mul spacing_one ht
  rw [Nat.mul_comm] at hone
  exact (roundUnits_mono total (Nat.mul_le_mul_right one h)).trans hone.le

theorem shareUnits_le {done total : Nat} (h : done ≤ total) (ht : 0 < total) : shareUnits done total ≤ 30 * one := by
  have hone := roundUnits_mul spacing_thirty Binary64.one_pos
  rw [Nat.mul_comm] at hone
  exact (roundUnits_mono one (Nat.mul_le_mul_right _ (roundUnits_share h ht))).trans hone.le

theorem shareUnits_mono {a b total : Nat} (h : a ≤ b) : shareUnits a total ≤ shareUnits b total :=
  roundUnits_mono one (Nat.mul_le_mul_right _ (roundUnits_mono total (Nat.mul_le_mul_right one h)))

theorem shareUnits_all {total : Nat} (ht : 0 < total) : shareUnits total total = 30 * one := by
  have hone := roundUnits_mul spacing_one ht
  have hthirty := roundUnits_mul spacing_thirty Binary64.one_pos
  rw [Nat.mul_comm] at hone hthirty
  rw [shareUnits, hone, hthirty]

theorem reviewPercent_eq {done total : Nat} (h : done ≤ total) (ht : 0 < total) :
    reviewPercent done total = 40 + nearest (shareUnits done total) one := by
  have hshare := (roundUnits_share h ht).trans_lt ((Nat.le_mul_of_pos_left one (by decide)).trans_lt thirty_lt_limit)
  have hpoints := (shareUnits_le h ht).trans_lt thirty_lt_limit
  have hdouble : (Binary64.ofRatio false done total).mul (.ofNat 30) = .finite false (shareUnits done total) := by
    rw [ofRatio, ofUnits, if_pos hshare, ofNat_thirty, mul, ofUnits]
    exact if_pos hpoints
  rw [reviewPercent, hdouble]
  simp only [nearest?, Option.getD_some, signed, Bool.false_eq_true, if_false, Phase.percent]
  omega

theorem reviewPercent_mono {a b total : Nat} (hab : a ≤ b) (hb : b ≤ total) :
    reviewPercent a total ≤ reviewPercent b total := by
  cases Nat.eq_zero_or_pos total with
  | inl h =>
    obtain rfl : a = b := by omega
    exact Nat.le_refl _
  | inr ht =>
    rw [reviewPercent_eq (hab.trans hb) ht, reviewPercent_eq hb ht]
    exact Nat.add_le_add_left (nearest_mono one (shareUnits_mono hab)) 40

theorem reviewPercent_all {total : Nat} (ht : 0 < total) : reviewPercent total total = 70 := by
  rw [reviewPercent_eq Nat.le.refl ht, shareUnits_all ht, nearest_mul Binary64.one_pos]

theorem reviewPercent_within {done total : Nat} (h : done ≤ total) (ht : 0 < total) :
    40 ≤ reviewPercent done total ∧ reviewPercent done total ≤ 70 := by
  refine ⟨?_, reviewPercent_all ht ▸ reviewPercent_mono h Nat.le.refl⟩
  rw [reviewPercent_eq h ht]
  exact Nat.le_add_right 40 _

theorem mem_fileMarks {total n : Nat} {m : Mark} (h : m ∈ fileMarks total 0 n) :
    m.1 = .review ∧ ∃ i, 1 ≤ i ∧ i ≤ n ∧ m.2 = reviewPercent i total := by
  obtain ⟨phase, percent⟩ := m
  obtain ⟨i, hi, hm⟩ := List.mem_map.1 h
  obtain ⟨hphase, hpercent⟩ := Prod.mk.inj hm
  have := List.mem_range'_1.1 hi
  exact ⟨hphase.symm, i, by omega, by omega, hpercent.symm⟩

variable {σ : Type} {c : Collaborators σ} {files : List SourceFile}

theorem mem_reviewMarks {m : Mark} (h : m ∈ reviewMarks c files) : m.1 = .review ∧ 40 ≤ m.2 ∧ m.2 ≤ 70 := by
  unfold reviewMarks at h
  split at h
  · obtain ⟨hphase, i, h1, hn, hpercent⟩ := mem_fileMarks h
    rw [hpercent]
    exact ⟨hphase, reviewPercent_within hn (by omega)⟩
  · cases h

theorem pairwise_reviewMarks : (reviewMarks c files).Pairwise (·.2 ≤ ·.2) := by
  unfold reviewMarks
  split
  · refine List.pairwise_map.2 ((List.pairwise_lt_range' (s := 0 + 1) (n := files.length)).imp_of_mem ?_)
    intro a b _ hb hab
    have := List.mem_range'_1.1 hb
    dsimp only
    exact reviewPercent_mono hab.le (by omega)
  · exact .nil

/-- The marks on the way to the end, which is reached or not. -/
def stages (c : Collaborators σ) (files : List SourceFile) : List Mark :=
  [Phase.started.mark, Phase.filesRead.mark, Phase.rules.mark] ++
    (reviewMarks c files ++ [Phase.review.mark, Phase.merge.mark, Phase.architecture.mark, Phase.scoring.mark])

theorem allMarks_eq : allMarks c files = stages c files ++ [Phase.completed.mark] := by
  simp [allMarks, bodyMarks, stages, lastMarks]

theorem mem_stages {m : Mark} (h : m ∈ stages c files) :
    5 ≤ m.2 ∧ m.2 ≤ 95 ∧ (m.1 = .review → 40 ≤ m.2 ∧ m.2 ≤ 70) ∧ m.1 ≠ .completed ∧ m.1 ≠ .failed := by
  simp only [stages, List.mem_append, List.mem_cons, List.not_mem_nil, or_false] at h
  obtain (rfl | rfl | rfl) | h | rfl | rfl | rfl | rfl := h
  case inr.inl =>
    obtain ⟨hphase, hwithin⟩ := mem_reviewMarks h
    rw [hphase]
    exact ⟨by omega, by omega, fun _ => hwithin, by decide, by decide⟩
  all_goals decide

theorem pairwise_stages : (stages c files).Pairwise (·.2 ≤ ·.2) := by
  have hbefore : ∀ a ∈ [Phase.started.mark, Phase.filesRead.mark, Phase.rules.mark], a.2 ≤ 40 := by decide
  have hafter : ∀ b ∈ [Phase.review.mark, Phase.merge.mark, Phase.architecture.mark, Phase.scoring.mark],
      70 ≤ b.2 := by decide
  have hlast : (reviewMarks c files ++
      [Phase.review.mark, Phase.merge.mark, Phase.architecture.mark, Phase.scoring.mark]).Pairwise (·.2 ≤ ·.2) :=
    List.pairwise_append.2 ⟨pairwise_reviewMarks, by decide,
      fun a ha b hb => (mem_reviewMarks ha).2.2.trans (hafter b hb)⟩
  refine List.pairwise_append.2 ⟨by decide, hlast, fun a ha b hb => (hbefore a ha).trans ?_⟩
  cases List.mem_append.1 hb with
  | inl hb => exact (mem_reviewMarks hb).2.1
  | inr hb => exact (show 40 ≤ 70 by decide).trans (hafter b hb)

theorem filter_stages : (stages c files).filter (·.1 == .review) = reviewMarks c files ++ [Phase.review.mark] := by
  have hall : (reviewMarks c files).filter (·.1 == .review) = reviewMarks c files :=
    List.filter_eq_self.2 fun m hm => beq_iff_eq.2 (mem_reviewMarks hm).1
  rw [stages, List.filter_append, List.filter_append, hall]
  rfl

def Listens (c : Collaborators σ) : Prop := ∀ p n message s, ((c.progress p n message).run s).1 = .ok ()

theorem Listens.mark?_eq_none {call : Call} {e : Failure} (h : Listens c) (hfrom : call.From c)
    (hfatal : call.fatal? = some e) : call.mark? = none := by
  cases call with
  | progress p n message answer =>
    obtain ⟨s, hs⟩ := hfrom
    cases (h p n message s).symm.trans hs
    cases hfatal
  | _ => rfl

theorem Account.told {calls : List Call} {e : Failure} (hsink : Listens c) (hfrom : ∀ k ∈ calls, k.From c)
    (h : Account calls (allMarks c files) [] (.error e : Except Failure Unit)) :
    Call.marks calls <+: stages c files := by
  cases h with
  | stopped hcalls hplan hearlier hlast hmissing =>
    rename_i earlier last missing
    have hne : missing ≠ [] := hmissing (hsink.mark?_eq_none (hfrom last (by simp [hcalls])) hlast)
    rw [allMarks_eq, ← List.dropLast_append_getLast hne, ← List.append_assoc] at hplan
    exact ⟨missing.dropLast, (List.append_inj_left' hplan rfl).symm⟩

theorem Ending.marks {calls : List Call} {o : Except Failure RunResult} (hsink : Listens c)
    (hfrom : ∀ k ∈ calls, k.From c) (h : Ending c files calls o) :
    (∃ r, o = .ok r ∧ ∃ told last, told <+: stages c files ∧ Call.marks calls = told ++ [last] ∧
      (r.status = .completed ∧ last = Phase.completed.mark ∨ r.status = .failed ∧ last = Phase.failed.mark)) ∨
    ∃ e, o = .error e ∧ e.isConfig = true ∧ Call.marks calls <+: stages c files := by
  cases h with
  | completed ho hstatus haccount =>
    cases haccount with
    | done hplan =>
      rw [List.append_nil] at hplan
      exact .inl ⟨_, ho, stages c files, _, List.prefix_rfl, by rw [← hplan, allMarks_eq], .inl ⟨hstatus, rfl⟩⟩
  | refused ho haccount he =>
    refine .inr ⟨_, ho, ?_, haccount.told hsink hfrom⟩
    cases he with
    | inl he => exact he
    | inr hsingle =>
      -- the one call is to the sink, which does not fail
      obtain ⟨p, n, message, answer, rfl⟩ := hsingle
      cases haccount with
      | stopped hcalls hplan hearlier hlast hmissing =>
        rename_i earlier last missing
        have hnone := hsink.mark?_eq_none (hfrom last (by simp [hcalls])) hlast
        have hlast' : last = .progress p n message answer := by
          have := congrArg List.getLast? hcalls
          simpa using this.symm
        rw [hlast'] at hnone
        cases hnone
  | failed hcalls haccount he hstatus ho =>
    rename_i e r steps message answer
    obtain ⟨s, hs⟩ := hfrom (.progress .failed Phase.failed.percent message answer) (by simp [hcalls])
    cases (hsink _ _ _ s).symm.trans hs
    refine .inl ⟨r, ho, Call.marks steps, Phase.failed.mark, ?_, by rw [hcalls, Call.marks_append]; rfl,
      .inr ⟨hstatus, rfl⟩⟩
    exact haccount.told hsink fun k hk => hfrom k (by simp [hcalls, hk])

def Phase.isLast (p : Phase) : Prop := p = .completed ∨ p = .failed

/-- What the marks of a run are like that ends in this way. The marks of the files are the first of their phase. -/
structure Protocol (c : Collaborators σ) (files : List SourceFile) (o : Except Failure RunResult)
    (marks : List Mark) : Prop where
  first : marks.head? = some (.started, 5)
  ordered : marks.Pairwise (·.2 ≤ ·.2)
  within : ∀ m ∈ marks, 5 ≤ m.2 ∧ m.2 ≤ 100
  reviews : ∀ m ∈ marks, m.1 = .review → 40 ≤ m.2 ∧ m.2 ≤ 70
  files : c.model.isSome → ∀ i m, i < files.length → (marks.filter (·.1 == .review))[i]? = some m →
    m.2 = reviewPercent (i + 1) files.length ∧ (i + 1 = files.length → m.2 = 70)
  returned : ∀ r, o = .ok r → ∃ earlier last, marks = earlier ++ [last] ∧ last.2 = 100 ∧
    (last.1 = .completed ↔ r.status = .completed) ∧ (last.1 = .failed ↔ r.status = .failed) ∧
    ∀ m ∈ earlier, ¬Phase.isLast m.1
  raised : ∀ e, o = .error e → e.isConfig = true ∧ ∀ m ∈ marks, ¬Phase.isLast m.1

variable {told : List Mark}

theorem within_of_prefix (h : told <+: stages c files) :
    (∀ m ∈ told, 5 ≤ m.2 ∧ m.2 ≤ 95 ∧ (m.1 = .review → 40 ≤ m.2 ∧ m.2 ≤ 70) ∧ ¬Phase.isLast m.1) ∧
      told.Pairwise (·.2 ≤ ·.2) := by
  refine ⟨fun m hm => ?_, pairwise_stages.sublist h.sublist⟩
  obtain ⟨hlow, hhigh, hreview, hcompleted, hfailed⟩ := mem_stages (h.subset hm)
  exact ⟨hlow, hhigh, hreview, fun hlast => hlast.elim hcompleted hfailed⟩

theorem fileMark_of_prefix (h : told <+: stages c files) (hmodel : c.model.isSome) {i : Nat} {m : Mark}
    (hi : i < files.length) (hm : (told.filter (·.1 == .review))[i]? = some m) :
    m.2 = reviewPercent (i + 1) files.length ∧ (i + 1 = files.length → m.2 = 70) := by
  have hstage : (reviewMarks c files ++ [Phase.review.mark])[i]? = some m := by
    have hprefix := h.filter (·.1 == .review)
    rw [filter_stages] at hprefix
    obtain ⟨later, hlater⟩ := hprefix
    rw [← hlater]
    rw [List.getElem?_append_left (List.getElem?_eq_some_iff.1 hm).1, hm]
  have hlength : (reviewMarks c files).length = files.length := by simp [reviewMarks, fileMarks, hmodel]
  rw [List.getElem?_append_left (hlength ▸ hi)] at hstage
  simp only [reviewMarks, hmodel, if_true, fileMarks, List.getElem?_map, Option.map_eq_some_iff] at hstage
  obtain ⟨k, hk, hm⟩ := hstage
  rw [List.getElem?_range' hi] at hk
  obtain rfl : i + 1 = k := by
    have := Option.some.inj hk
    omega
  obtain ⟨phase, percent⟩ := m
  obtain ⟨-, hpercent⟩ := Prod.mk.inj hm
  refine ⟨hpercent.symm, fun hlast => hpercent.symm.trans ?_⟩
  rewrite [hlast]
  exact reviewPercent_all (by omega)

theorem Protocol.of_returned {r : RunResult} {last : Mark} (h : told <+: stages c files)
    (hfirst : (told ++ [last]).head? = some (.started, 5))
    (hlast : r.status = .completed ∧ last = Phase.completed.mark ∨ r.status = .failed ∧ last = Phase.failed.mark) :
    Protocol c files (.ok r) (told ++ [last]) := by
  obtain ⟨hwithin, hordered⟩ := within_of_prefix h
  have hend : last.2 = 100 ∧ last.1 ≠ .review ∧ (last.1 = .completed ↔ r.status = .completed) ∧
      (last.1 = .failed ↔ r.status = .failed) := by
    obtain ⟨hstatus, rfl⟩ | ⟨hstatus, rfl⟩ := hlast <;> rw [hstatus] <;> decide
  obtain ⟨hpercent, hphase, hcompleted, hfailed⟩ := hend
  constructor
  case first => exact hfirst
  case ordered =>
    refine List.pairwise_append.2 ⟨hordered, List.pairwise_singleton _ _, fun a ha b hb => ?_⟩
    have := hwithin a ha
    rw [List.mem_singleton.1 hb, hpercent]
    omega
  case within =>
    intro m hm
    cases List.mem_append.1 hm with
    | inl hm =>
      have := hwithin m hm
      omega
    | inr hm =>
      rw [List.mem_singleton.1 hm, hpercent]
      decide
  case reviews =>
    intro m hm hreview
    cases List.mem_append.1 hm with
    | inl hm => exact (hwithin m hm).2.2.1 hreview
    | inr hm => exact absurd (List.mem_singleton.1 hm ▸ hreview) hphase
  case files =>
    intro hmodel i m hi hm
    have hnone : [last].filter (·.1 == .review) = [] := by simp [hphase]
    rw [List.filter_append, hnone, List.append_nil] at hm
    exact fileMark_of_prefix h hmodel hi hm
  case returned =>
    intro r' hr'
    cases hr'
    exact ⟨told, last, rfl, hpercent, hcompleted, hfailed, fun m hm => (hwithin m hm).2.2.2⟩
  case raised => exact fun e he => by cases he

theorem Protocol.of_raised {e : Failure} (h : told <+: stages c files) (hfirst : told.head? = some (.started, 5))
    (he : e.isConfig = true) : Protocol c files (.error e) told := by
  obtain ⟨hwithin, hordered⟩ := within_of_prefix h
  refine ⟨hfirst, hordered, fun m hm => ?_, fun m hm => (hwithin m hm).2.2.1,
    fun hmodel i m hi hm => fileMark_of_prefix h hmodel hi hm, fun r hr => (by cases hr), fun e' he' => ?_⟩
  · have := hwithin m hm
    omega
  · cases he'
    exact ⟨he, fun m hm => (hwithin m hm).2.2.2⟩

/-- As long as its sink does not fail, a run tells its progress in order, whatever else fails. -/
theorem analyze_progress {c : Collaborators σ} (hsink : Listens c) (files : List SourceFile) (project : String)
    (s : σ) :
    ∃ calls, (analyze c.traced files project).run ([], s) =
        (((analyze c files project).run s).1, calls, ((analyze c files project).run s).2) ∧
      Protocol c files ((analyze c files project).run s).1 (Call.marks calls) := by
  obtain ⟨calls, hrun, hending, hfrom, o, later, hcalls⟩ := traced_analyze c files project s
  refine ⟨calls, hrun, ?_⟩
  have hfirst : (Call.marks calls).head? = some (.started, 5) := by
    rw [hcalls]
    rfl
  obtain ⟨r, ho, told, last, hprefix, hmarks, hlast⟩ | ⟨e, ho, he, hprefix⟩ := hending.marks hsink hfrom
  · rw [hmarks] at hfirst
    rw [ho, hmarks]
    exact .of_returned hprefix hfirst hlast
  · rw [ho]
    exact .of_raised hprefix hfirst he

/-- One file, whose review fails, and then no score. -/
theorem analyze_progress_failed :
    let c : Collaborators Unit := {
      build := fun _ _ => return .ok none
      model := some ⟨fun _ _ _ => return .error (.runtime "no review"), fun _ _ => return .ok none⟩
      languages := ["TypeScript"]
      score := fun _ _ => return .error (.runtime "no score")
      save := none
      progress := fun _ _ _ => return .ok () }
    ∃ calls r, (analyze c.traced [⟨"a.ts", "x"⟩] "p").run ([], ()) = (.ok r, calls, ()) ∧ r.status = .failed ∧
      Protocol c [⟨"a.ts", "x"⟩] (.ok r) (Call.marks calls) := by
  intro c
  have h : ∃ r, (analyze c [⟨"a.ts", "x"⟩] "p").run () = (.ok r, ()) ∧ r.status = .failed := ⟨_, rfl, rfl⟩
  obtain ⟨r, hr, hfailed⟩ := h
  obtain ⟨calls, hrun, hprotocol⟩ := analyze_progress (c := c) (fun _ _ _ _ => rfl) [⟨"a.ts", "x"⟩] "p" ()
  rw [hr] at hrun hprotocol
  exact ⟨calls, r, hrun, hfailed, hprotocol⟩

end CodeAudit.Run
