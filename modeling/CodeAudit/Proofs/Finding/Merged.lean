import CodeAudit.Merge
import Mathlib.Data.List.Basic

/-!
Findings in the order of presentation. Findings of one severity and one path may stand either way round, and there
the order in which they were given decides. So a list in order is told by what it holds of each severity and path.
-/
set_option autoImplicit false

namespace CodeAudit

theorem Severity.rank_eq_iff {a b : Severity} : a.rank = b.rank ↔ a = b := by
  cases a <;> cases b <;> decide

/-- At the first place where the texts differ, the first has the lesser code point or ends. -/
def Text.Less (s t : String) : Prop := List.Lex (fun c d => c.toNat < d.toNat) s.toList t.toList

theorem Text.less_iff {s t : String} : Less s t ↔ s < t := String.lt_iff.symm

theorem Text.le_iff {s t : String} : s ≤ t ↔ s = t ∨ Less s t := by
  rw [less_iff]
  constructor
  · intro h
    by_cases hlt : s < t
    · exact .inr hlt
    · exact .inl (String.le_antisymm h (String.not_lt.1 hlt))
  · intro h
    cases h with
    | inl h => exact h ▸ String.le_refl s
    | inr h => exact String.not_lt.1 (String.lt_asymm h)

namespace Finding
variable {f g h : Finding}

def group (f : Finding) : Severity × String := (f.severity, f.path)

/-- The first finding is graver, or it is as grave and its path does not come later by code points. -/
def Precedes (f g : Finding) : Prop :=
  f.severity.rank < g.severity.rank ∨
    f.severity.rank = g.severity.rank ∧ (f.path = g.path ∨ Text.Less f.path g.path)

theorem precedes_iff_le : Precedes f g ↔
    f.severity.rank < g.severity.rank ∨ f.severity.rank = g.severity.rank ∧ f.path ≤ g.path := by
  rw [Precedes, Text.le_iff]

theorem before_iff : before f g ↔ Precedes f g := by
  simp [precedes_iff_le, before, Severity.rank_eq_iff]

theorem Precedes.trans (hfg : Precedes f g) (hgh : Precedes g h) : Precedes f h := by
  rw [precedes_iff_le] at *
  obtain hfg | ⟨hfg, hf⟩ := hfg
  · exact .inl (by omega)
  · obtain hgh | ⟨hgh, hg⟩ := hgh
    · exact .inl (by omega)
    · exact .inr ⟨hfg.trans hgh, String.le_trans hf hg⟩

theorem precedes_total (f g : Finding) : Precedes f g ∨ Precedes g f := by
  rw [precedes_iff_le, precedes_iff_le]
  obtain hlt | heq | hgt := Nat.lt_trichotomy f.severity.rank g.severity.rank
  · exact .inl (.inl hlt)
  · exact (String.le_total f.path g.path).imp (fun h => .inr ⟨heq, h⟩) fun h => .inr ⟨heq.symm, h⟩
  · exact .inr (.inl hgt)

theorem precedes_of_group (hgroup : f.group = g.group) : Precedes f g := by
  simp only [group, Prod.mk.injEq] at hgroup
  exact .inr ⟨congrArg Severity.rank hgroup.1, .inl hgroup.2⟩

theorem group_of_precedes (hfg : Precedes f g) (hgf : Precedes g f) : f.group = g.group := by
  rw [precedes_iff_le] at hfg hgf
  obtain hlt | ⟨hrank, hf⟩ := hfg
  · omega
  · obtain hgt | ⟨-, hg⟩ := hgf
    · omega
    · rw [group, group, Severity.rank_eq_iff.1 hrank, String.le_antisymm hf hg]

end Finding

namespace Findings
variable {fs gs rules model : List Finding}

theorem merge_perm (rules model : List Finding) : (merge rules model).Perm (rules ++ model) :=
  List.mergeSort_perm _ _

theorem before_trans (f g h : Finding) (hfg : f.before g) (hgh : g.before h) : f.before h :=
  Finding.before_iff.2 ((Finding.before_iff.1 hfg).trans (Finding.before_iff.1 hgh))

theorem before_total (f g : Finding) : (f.before g || g.before f) = true := by
  rw [Bool.or_eq_true, Finding.before_iff, Finding.before_iff]
  exact Finding.precedes_total f g

theorem merge_pairwise (rules model : List Finding) : (merge rules model).Pairwise Finding.Precedes :=
  (List.pairwise_mergeSort before_trans before_total (rules ++ model)).imp Finding.before_iff.1

theorem merge_of_pairwise (h : fs.Pairwise Finding.Precedes) : merge fs [] = fs := by
  rw [merge, List.append_nil]
  exact List.mergeSort_of_pairwise (h.imp Finding.before_iff.2)

theorem filter_group_merge (rules model : List Finding) (group : Severity × String) :
    (merge rules model).filter (·.group = group) = (rules ++ model).filter (·.group = group) := by
  have hordered : ((rules ++ model).filter (·.group = group)).Pairwise fun f g => f.before g := by
    refine List.pairwise_of_forall_mem_list fun f hf g hg => ?_
    have hf := of_decide_eq_true (List.mem_filter.1 hf).2
    have hg := of_decide_eq_true (List.mem_filter.1 hg).2
    exact Finding.before_iff.2 (Finding.precedes_of_group (hf.trans hg.symm))
  have hsub : ((rules ++ model).filter (·.group = group)).Sublist (merge rules model) :=
    List.sublist_mergeSort before_trans before_total hordered List.filter_sublist
  have hkept := hsub.filter (·.group = group)
  simp only [List.filter_filter, Bool.and_self] at hkept
  exact (hkept.eq_of_length ((merge_perm rules model).filter _).length_eq.symm).symm

theorem mem_of_groups (h : ∀ group, fs.filter (·.group = group) = gs.filter (·.group = group)) {f : Finding}
    (hf : f ∈ fs) : f ∈ gs := by
  have hmem : f ∈ fs.filter (·.group = f.group) := List.mem_filter.2 ⟨hf, decide_eq_true rfl⟩
  rw [h] at hmem
  exact (List.mem_filter.1 hmem).1

/-- A list in order is told by what it holds of each severity and path. -/
theorem eq_of_groups (hfs : fs.Pairwise Finding.Precedes) (hgs : gs.Pairwise Finding.Precedes)
    (h : ∀ group, fs.filter (·.group = group) = gs.filter (·.group = group)) : fs = gs := by
  induction fs generalizing gs with
  | nil =>
    cases gs with
    | nil => rfl
    | cons g gs => cases mem_of_groups (fun k => (h k).symm) (List.mem_cons_self (a := g))
  | cons f fs ih =>
    cases gs with
    | nil => cases mem_of_groups h (List.mem_cons_self (a := f))
    | cons g gs =>
      rw [List.pairwise_cons] at hfs hgs
      -- each head occurs in the other list as well, so that neither may go before the other's group
      have hgroup : f.group = g.group := by
        obtain rfl | hf := List.mem_cons.1 (mem_of_groups h List.mem_cons_self)
        · rfl
        · obtain rfl | hg := List.mem_cons.1 (mem_of_groups (fun k => (h k).symm) List.mem_cons_self)
          · rfl
          · exact Finding.group_of_precedes (hfs.1 g hg) (hgs.1 f hf)
      have hheads := h f.group
      simp only [List.filter_cons, hgroup, decide_true, if_true, List.cons.injEq] at hheads
      obtain ⟨rfl, -⟩ := hheads
      have hrest : ∀ group, fs.filter (·.group = group) = gs.filter (·.group = group) := by
        intro k
        have hk := h k
        rw [List.filter_cons, List.filter_cons] at hk
        split at hk
        · exact (List.cons.inj hk).2
        · exact hk
      rw [ih hfs.2 hgs.2 hrest]

theorem filter_merge_group (rules model : List Finding) (pick : Finding → Bool) (group : Severity × String) :
    ((merge rules model).filter pick).filter (·.group = group) =
      ((rules ++ model).filter pick).filter (·.group = group) := by
  have hswap (fs : List Finding) : (fs.filter pick).filter (·.group = group) =
      (fs.filter (·.group = group)).filter pick := by
    simp only [List.filter_filter, Bool.and_comm]
  rw [hswap, hswap, filter_group_merge]

theorem filter_source {source other : Source} (h : ∀ f ∈ fs, f.source = source) :
    fs.filter (·.source == other) = if source = other then fs else [] := by
  split
  · rename_i hsame
    exact List.filter_eq_self.2 fun f hf => by simp [h f hf, hsame]
  · rename_i hother
    exact List.filter_eq_nil_iff.2 fun f hf => by simp [h f hf, hother]

theorem filter_source_append (hrules : ∀ f ∈ rules, f.source = .rules) (hmodel : ∀ f ∈ model, f.source = .model)
    (s : Source) : (rules ++ model).filter (·.source == s) = match s with | .rules => rules | .model => model := by
  rw [List.filter_append, filter_source hrules, filter_source hmodel]
  cases s <;> simp

theorem filter_merge (hrules : ∀ f ∈ rules, f.source = .rules) (hmodel : ∀ f ∈ model, f.source = .model) (s : Source) :
    ((merge rules model).filter (·.source == s)).Perm (match s with | .rules => rules | .model => model) :=
  filter_source_append hrules hmodel s ▸ (merge_perm rules model).filter _

/-- Merged findings are the one list that holds all that were given, in the order of presentation, and of each severity
and path in the order in which they were given. Merging them again changes nothing. What they hold of a source, a
severity and a path stands in the order in which it was given, and where each list comes from one source, that is its
part of this list. -/
theorem merge_stable (rules model : List Finding) :
    (∀ fs, fs = merge rules model ↔ fs.Perm (rules ++ model) ∧ fs.Pairwise Finding.Precedes ∧
      ∀ group, fs.filter (·.group = group) = (rules ++ model).filter (·.group = group)) ∧
    merge (merge rules model) [] = merge rules model ∧
    (∀ source group, ((merge rules model).filter (·.source == source)).filter (·.group = group) =
      ((rules ++ model).filter (·.source == source)).filter (·.group = group)) ∧
    ((∀ f ∈ rules, f.source = .rules) → (∀ f ∈ model, f.source = .model) → ∀ group,
      ((merge rules model).filter (·.source == .rules)).filter (·.group = group) = rules.filter (·.group = group) ∧
      ((merge rules model).filter (·.source == .model)).filter (·.group = group) = model.filter (·.group = group)) := by
  have hordered := merge_pairwise rules model
  refine ⟨fun fs => ⟨?_, fun ⟨_, hfs, hgroups⟩ => ?_⟩, merge_of_pairwise hordered, fun source =>
    filter_merge_group rules model _, fun hrules hmodel group => ?_⟩
  · intro h
    subst h
    exact ⟨merge_perm rules model, hordered, filter_group_merge rules model⟩
  · exact eq_of_groups hfs hordered fun group => (hgroups group).trans (filter_group_merge rules model group).symm
  · rw [filter_merge_group, filter_merge_group, filter_source_append hrules hmodel, filter_source_append hrules hmodel]
    exact ⟨rfl, rfl⟩

/-- Of two complaints of the model about one file, alike in severity, the first stays the first, between what the rules
have to say about other files. -/
theorem merge_stable_between :
    let found (severity : Severity) (path : String) (line : Nat) (h : 1 ≤ line) (source : Source) : Finding :=
      ⟨.security, severity, "t", "d", path, .single line h, none, none, source, none, []⟩
    let second := found .high "b.ts" 9 (by decide) .model
    let third := found .high "b.ts" 2 (by decide) .model
    let rules := [found .low "a.ts" 1 (by decide) .rules, found .high "c.ts" 1 (by decide) .rules]
    ((merge rules [second, third]).filter (·.source == .model)).filter (·.group = (.high, "b.ts")) = [second, third] := by
  intro found second third rules
  exact ((merge_stable rules [second, third]).2.2.2 (by simp [rules, found]) (by simp [second, third, found]) _).2

end Findings
end CodeAudit
