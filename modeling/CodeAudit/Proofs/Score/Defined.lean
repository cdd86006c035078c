import CodeAudit.Proofs.Number.Order
import CodeAudit.Proofs.Rule.Found
import CodeAudit.Proofs.Tree.Visited
import CodeAudit.Score.Report

set_option autoImplicit false

namespace CodeAudit

namespace Binary64

def Below (k : Nat) (x : Binary64) : Prop := ∃ neg u, x = .finite neg u ∧ u < 2 ^ k

namespace Below
variable {k : Nat} {x y : Binary64}

theorem mono {j : Nat} (h : Below k x) (hkj : k ≤ j) : Below j x := by
  obtain ⟨neg, u, hx, hu⟩ := h
  exact ⟨neg, u, hx, hu.trans_le (Nat.pow_le_pow_right (by decide) hkj)⟩

theorem ofUnits (neg : Bool) {num den : Nat} (h : num / den < 2 ^ k) (hk : k < 2098) :
    Below (k + 1) (ofUnits neg num den) := by
  obtain ⟨u, hu, hx⟩ := ofUnits_finite neg h hk
  exact ⟨neg, u, hx, hu⟩

theorem add (hx : Below k x) (hy : Below k y) (hk : k < 2097) : Below (k + 2) (x.add y) := by
  obtain ⟨a, u, rfl, hu⟩ := hx
  obtain ⟨b, v, rfl, hv⟩ := hy
  rw [Binary64.add]
  split
  · exact ⟨a && b, 0, rfl, Nat.two_pow_pos _⟩
  · refine ofUnits _ (k := k + 1) ?_ (by omega)
    have hsigned (c : Bool) (w : Nat) : (signed c w).natAbs = w := by cases c <;> simp [signed]
    have hsum := Int.natAbs_add_le (signed a u) (signed b v)
    rw [hsigned, hsigned] at hsum
    rw [Nat.div_one, Nat.pow_succ]
    omega

theorem mul (neg : Bool) {v : Nat} (hx : Below k x) (hv : v ≤ one) (hk : k < 2098) :
    Below (k + 1) (x.mul (.finite neg v)) := by
  obtain ⟨a, u, rfl, hu⟩ := hx
  rw [Binary64.mul]
  refine ofUnits _ (lt_of_le_of_lt ?_ hu) hk
  exact (Nat.div_le_div_right (Nat.mul_le_mul_left u hv)).trans (Nat.mul_div_cancel u one_pos).le

theorem two_pow_mul_one (k : Nat) : 2 ^ k * one = 2 ^ (k + 1074) := by
  obtain ⟨m, hm, hone⟩ : ∃ m, m = 1074 ∧ one = 2 ^ m := ⟨1074, by decide +kernel⟩
  rw [hone, ← hm, Nat.pow_add]

theorem ofNat {n : Nat} (hn : n < 2 ^ k) (hk : k < 1024) : Below (k + 1075) (ofNat n) := by
  rw [ofNat_eq]
  refine ofUnits _ (k := k + 1074) ?_ (by omega)
  rw [Nat.div_one, ← two_pow_mul_one]
  exact Nat.mul_lt_mul_of_pos_right hn one_pos

end Below
end Binary64

namespace Score
open Binary64

theorem half_below : Below 1074 half := ⟨false, roundUnits one 2, by decide +kernel, by decide +kernel⟩

theorem roundHalfUp_below {k : Nat} {x : Binary64} (h : Below k x) (hlow : 1074 ≤ k) (hk : k < 2097) :
    ∃ i, roundHalfUp x = .ok i := by
  obtain ⟨neg, u, hsum, -⟩ := h.add (half_below.mono hlow) hk
  rw [roundHalfUp, hsum]
  exact ⟨_, rfl⟩

theorem twoFifths_eq : twoFifths = .finite false (roundUnits (4 * one) 10) := by decide +kernel

theorem oneFifth_eq : oneFifth = .finite false (roundUnits (2 * one) 10) := by decide +kernel

theorem weights_le : roundUnits (4 * one) 10 ≤ one ∧ roundUnits (2 * one) 10 ≤ one := by decide +kernel

theorem overall_defined {rules model architecture : Nat} (hrules : rules < 2 ^ 7) (hmodel : model < 2 ^ 7)
    (harchitecture : architecture < 2 ^ 7) :
    ∃ n, overall (.ofNat rules) (.ofNat model) (.ofNat architecture) = .ok n := by
  have hr := (Below.ofNat hrules (by decide)).mul false weights_le.1 (by decide)
  have hm := (Below.ofNat hmodel (by decide)).mul false weights_le.1 (by decide)
  have ha := (Below.ofNat harchitecture (by decide)).mul false weights_le.2 (by decide)
  rw [← twoFifths_eq] at hr hm
  rw [← oneFifth_eq] at ha
  have hsum := (hr.add hm (by decide)).add (ha.mono (by decide)) (by decide)
  obtain ⟨i, hi⟩ := roundHalfUp_below hsum (by decide) (by decide)
  exact ⟨clamp i, by rw [overall, composite, hi]; rfl⟩

def mean : Binary64 → Except Failure Binary64
  | .infinite _ => .error (.overflow "integer division result too large for a float")
  | x => .ok x

theorem dividedBy_eq : Total.dividedBy = fun t n => match t with
    | .real x => .ok (x.divNat n)
    | .whole i => mean (ofRatio (decide (i < 0)) i.natAbs n) := by
  delta Total.dividedBy
  -- with the division itself in place of a variable, the kernel would compute with units of variable numbers
  generalize ofRatio = divide
  revert divide
  refine id fun divide => ?_
  funext t n
  cases t with
  | real x => rfl
  | whole i => cases divide (decide (i < 0)) i.natAbs n <;> rfl

theorem dividedBy_whole {i : Int} {n : Nat} {neg : Bool} {u : Nat}
    (h : ofRatio (decide (i < 0)) i.natAbs n = .finite neg u) :
    (Total.whole i).dividedBy n = .ok (.finite neg u) :=
  (congrFun (congrFun dividedBy_eq (.whole i)) n).trans (congrArg mean h)

def Naturals (vs : List Json) : Prop := ∀ v ∈ vs, ∃ n : Nat, v = .ofNat n

def wholeOf : Json → Int
  | .int i => i
  | _ => 0

theorem foldlM_naturals {vs : List Json} (h : Naturals vs) (i : Int) :
    vs.foldlM Total.plusValue (.whole i) = .ok (.whole (i + (vs.map wholeOf).sum)) := by
  induction vs generalizing i with
  | nil => simp [pure, Except.pure]
  | cons v vs ih =>
    obtain ⟨n, rfl⟩ := h v List.mem_cons_self
    have hrest : Naturals vs := fun v hv => h v (List.mem_cons_of_mem _ hv)
    have hplus : Total.plusValue (.whole i) (.ofNat n) = .ok (.whole (i + n)) := rfl
    rw [List.foldlM_cons, hplus]
    change vs.foldlM Total.plusValue (.whole (i + n)) = _
    rw [ih hrest, List.map_cons, List.sum_cons, ← Int.add_assoc]
    rfl

theorem sum_wholeOf_le {bound : Nat} {vs : List Json} (h : ∀ v ∈ vs, ∃ n < bound, v = .ofNat n) :
    ∃ t : Nat, (vs.map wholeOf).sum = t ∧ t + vs.length ≤ vs.length * bound := by
  induction vs with
  | nil => exact ⟨0, rfl, by simp⟩
  | cons v vs ih =>
    obtain ⟨n, hn, rfl⟩ := h v List.mem_cons_self
    obtain ⟨t, ht, hle⟩ := ih fun v hv => h v (List.mem_cons_of_mem _ hv)
    refine ⟨n + t, ?_, ?_⟩
    · rw [List.map_cons, List.sum_cons, ht]
      rfl
    · rw [List.length_cons, Nat.succ_mul]
      omega

theorem average_eq {vs : List Json} {t : Total} (hne : vs ≠ [])
    (ht : vs.foldlM Total.plusValue (.whole 0) = .ok t) :
    average vs = (t.dividedBy vs.length).bind roundHalfUp := by
  rw [average, if_neg (by simpa using hne), ht]
  rfl

theorem average_defined {k : Nat} {vs : List Json} (h : ∀ v ∈ vs, ∃ n < 2 ^ k, v = .ofNat n) (hk : k ≤ 1000) :
    ∃ i, average vs = .ok i := by
  by_cases hvs : vs = []
  · exact ⟨0, by rw [hvs]; rfl⟩
  · have hpos : 0 < vs.length := List.length_pos_iff.2 hvs
    obtain ⟨t, ht, hle⟩ := sum_wholeOf_le h
    have hfold := foldlM_naturals (fun v hv => (h v hv).imp fun _ hn => hn.2) 0
    rw [ht, Int.zero_add] at hfold
    have hsum : t < vs.length * 2 ^ k := by omega
    have hmean : t * one / vs.length < 2 ^ (k + 1074) := by
      refine Nat.div_lt_of_lt_mul ?_
      rw [← Below.two_pow_mul_one, ← Nat.mul_assoc]
      exact Nat.mul_lt_mul_of_pos_right hsum Binary64.one_pos
    obtain ⟨neg, u, hu, hlt⟩ := Below.ofUnits (decide ((t : Int) < 0)) hmean (by omega)
    rw [average_eq hvs hfold, dividedBy_whole hu]
    exact roundHalfUp_below ⟨neg, u, rfl, hlt⟩ (by omega) (by omega)

theorem score_lt (w : Weights) (fs : List Finding) : score w fs < 2 ^ 7 :=
  (Nat.sub_le 100 _).trans_lt (by decide)

theorem architectureScore_lt (a : Option Assessment) : architectureScore a < 2 ^ 7 := by
  unfold architectureScore
  split
  · unfold ofLabel
    split <;> decide
  · decide

end Score

def vast : Nat := 2 ^ 1000

def Finding.Measured (f : Finding) : Prop :=
  ∀ name ∈ ["functionSize", "complexity"], ∀ v, f.metadata.get? name = some v → ∃ n < vast, v = .ofNat n

theorem Metrics.of_defined {fs : List Finding} (h : ∀ f ∈ fs, f.Measured) : ∃ m, Metrics.of fs = .ok m := by
  have haverage (name : String) (hname : name ∈ ["functionSize", "complexity"]) :
      ∃ i, Score.average (Score.measures name fs) = .ok i := by
    refine Score.average_defined (k := 1000) (fun v hv => ?_) le_rfl
    obtain ⟨f, hf, hv⟩ := List.mem_filterMap.1 (List.mem_filter.1 hv).1
    exact h f hf name hname v hv
  obtain ⟨size, hsize⟩ := haverage "functionSize" (by decide)
  obtain ⟨complexity, hcomplexity⟩ := haverage "complexity" (by decide)
  exact ⟨_, by rw [Metrics.of, hsize, hcomplexity]; rfl⟩

/-- There is a report on findings with such measures, whatever the assessment. -/
theorem Report.of_defined {fs : List Finding} (h : ∀ f ∈ fs, f.Measured) (a : Option Assessment) :
    ∃ r, Report.of fs a = .ok r := by
  obtain ⟨n, hn⟩ := Score.overall_defined (Score.score_lt Score.ruleWeights (fs.filter (·.source == .rules)))
    (Score.score_lt Score.modelWeights (fs.filter (·.source == .model))) (Score.architectureScore_lt a)
  obtain ⟨m, hm⟩ := Metrics.of_defined h
  unfold Report.of
  simp only [Score.ruleScore, Score.modelScore, hn, hm]
  exact ⟨_, rfl⟩

namespace Place
variable {x y : Place}

theorem walk_length_le (h : y ∈ x.walk) : y.walk.length ≤ x.walk.length := by
  rw [mem_walk] at h
  induction h with
  | refl => exact Nat.le_refl _
  | @tail b c _ hc ih =>
    have hpart : c.walk.length ≤ (b.namedChildren.flatMap walk).length := by
      rw [List.flatMap_def]
      exact (List.sublist_flatten_of_mem (List.mem_map_of_mem hc)).length_le
    rw [walk_cons b, List.length_cons] at ih
    omega

theorem scope_length (x : Place) : x.scope.length < x.walk.length := by
  have hnodup : (x :: x.scope).Nodup := List.nodup_cons.2 ⟨notMem_scope_self x, (nodup_scope x).of_map⟩
  have hsubset : x :: x.scope ⊆ x.walk := List.cons_subset.2 ⟨mem_walk_self x, scope_subset_walk x⟩
  exact (hnodup.subperm hsubset).length_le

end Place

namespace Rule

theorem functionComplexity_le {p : Parsed} {x : Place} (hx : x ∈ p.top.walk) :
    functionComplexity x ≤ p.top.walk.length := by
  have hscope := x.scope_length
  have hwalk := Place.walk_length_le hx
  have hcount := x.scope.countP_le_length (p := isDecision)
  rw [functionComplexity]
  omega

theorem lineSpan_le (p : Parsed) (x : Place) : lineSpan p x ≤ p.bytes.length + 1 := by
  have hrow (n : Nat) : p.row n ≤ p.bytes.length := Nat.le_trans List.count_le_length (List.length_take_le' _ _)
  have hstop := hrow x.node.stop
  rw [lineSpan, Parsed.stopRow]
  omega

end Rule

/-- No function of the tree is vast. -/
def Parsed.Measurable (p : Parsed) : Prop :=
  ∀ x ∈ p.top.walk, Rule.functionComplexity x < vast ∧ Rule.lineSpan p x < vast

/-- Neither the text nor the tree is vast. -/
def Parsed.Moderate (p : Parsed) : Prop := p.bytes.length + 1 < vast ∧ p.top.walk.length < vast

theorem Parsed.Moderate.measurable {p : Parsed} (h : p.Moderate) : p.Measurable := by
  intro x hx
  have hlines := Rule.lineSpan_le p x
  have hbytes := h.1
  exact ⟨(Rule.functionComplexity_le hx).trans_lt h.2, by omega⟩

theorem Finding.measured_of_metadata {f : Finding} (hsize : f.metadata.get? "functionSize" = none)
    (hcomplexity : f.metadata.get? "complexity" = none) : f.Measured := by
  simp [Finding.Measured, hsize, hcomplexity]

theorem Rule.Found.measured {p : Parsed} (hp : p.Measurable) {f : Finding} (h : Rule.Found p f) : f.Measured := by
  cases h with
  | plain hx h | plainLine hx h | plainStart hx h =>
    have hnone (name : String) : Fields.get? name _ = none := congrArg (Fields.get? name) h.2.1
    exact Finding.measured_of_metadata (hnone "functionSize") (hnone "complexity")
  | complexFunction hx hf hlt =>
    intro name hname v hv
    simp only [List.mem_cons, List.not_mem_nil, or_false] at hname
    obtain rfl | rfl := hname
    · cases hv
    · cases hv
      exact ⟨_, (hp _ hx).1, rfl⟩
  | longFunction hx hf hlt =>
    intro name hname v hv
    simp only [List.mem_cons, List.not_mem_nil, or_false] at hname
    obtain rfl | rfl := hname
    · cases hv
      have hvast := (hp _ hx).2
      have hlines : ((Rule.maxFunctionLines : Nat) : Int) = 50 := rfl
      exact ⟨(Rule.lineSpan p _).toNat, by omega, congrArg Json.int (Int.toNat_of_nonneg (by omega)).symm⟩
    · cases hv
  | deepNesting | largeClass | magicNumber | marker => exact Finding.measured_of_metadata rfl rfl

theorem Rule.complexFile_measured {p : Parsed} {f : Finding} (h : f ∈ Rule.complexFile p) : f.Measured := by
  unfold Rule.complexFile at h
  dsimp only at h
  split at h
  · rw [List.mem_singleton.1 h]
    exact Finding.measured_of_metadata rfl rfl
  · cases h

end CodeAudit
