import CodeAudit.Proofs.Rule.Catalogued
import CodeAudit.Proofs.Tree.Descent
import CodeAudit.Proofs.Tree.Nodes
import CodeAudit.Rule.Performance

/-!
Deep nesting and scans in loops. The rules climb from each place to the root; going down the tree once, with the count
of levels or with whether a loop has been passed, reports the same.
-/
set_option autoImplicit false

namespace CodeAudit

namespace Rule
open Place

/-- Counts the levels of nesting and reports, with their count, the conditionals and loops below too many. -/
def nestingDescent : Descent Nat (Node × Nat) where
  carry depth n := if addsLevel (top n) then depth + 1 else depth
  report? depth n :=
    if ((top n).isLoop || n.kind == "if_statement") && maxDepth < depth then some (n, depth) else none

/-- Knows whether a loop has been passed and reports, with the method, the scans of an array below one. -/
def scanDescent (p : Parsed) : Descent Bool (Node × String) where
  carry inLoop n := inLoop || (top n).isLoop
  report? inLoop n := if inLoop then ((calledMethod? p (top n)).filter searchMethods.contains).map (n, ·) else none

/-- Where a reported node begins, as row and column. -/
def nestingKey (p : Parsed) (r : Node × Nat) : Nat × Nat := (p.row r.1.start, p.column r.1.start)

def scanKey (r : Node × String) : Nat × Nat := (r.1.start, r.1.stop)

variable {p : Parsed} {x : Place}

theorem calledMethod?_top (p : Parsed) (x : Place) : calledMethod? p (top x.node) = calledMethod? p x := by
  have hcallee : ((top x.node).child? "function").map Place.node = (x.child? "function").map Place.node := by
    rw [child?_node, child?_node]
    rfl
  rw [calledMethod?, calledMethod?, Parsed.memberParts?_congr hcallee]
  rfl

theorem nestingDescent_meets : nestingDescent.Meets depthOf := by
  intro trail n c i
  have hclimb : depthOf ⟨c, (i, n) :: trail⟩ = (Place.mk n trail :: climb trail).countP addsLevel := rfl
  rw [hclimb, List.countP_cons, nestingDescent]
  have hlevel : addsLevel ⟨n, trail⟩ = addsLevel (top n) := rfl
  rw [hlevel]
  dsimp only
  split <;> rfl

theorem scanDescent_meets (p : Parsed) : (scanDescent p).Meets isInLoop := by
  intro trail n c i
  have hclimb : isInLoop ⟨c, (i, n) :: trail⟩ = (Place.mk n trail :: climb trail).any isLoop := rfl
  rw [hclimb, List.any_cons, Bool.or_comm]
  rfl

theorem filterMap_nesting (xs : List Place) : xs.filterMap (nestingDescent.reportAt? depthOf) =
    (xs.filter isTooDeep).map fun x => (x.node, depthOf x) := by
  rw [← List.filterMap_eq_map, List.filterMap_filter]
  rfl

def scanAt? (p : Parsed) (x : Place) : Option (Place × String) :=
  if isInLoop x then ((calledMethod? p x).filter searchMethods.contains).map (x, ·) else none

theorem filterMap_scan (xs : List Place) : xs.filterMap ((scanDescent p).reportAt? isInLoop) =
    (xs.filterMap (scanAt? p)).map fun r => (r.1.node, r.2) := by
  rw [List.map_filterMap]
  congr 1
  funext x
  rw [scanAt?, Descent.reportAt?, scanDescent]
  dsimp only
  rw [calledMethod?_top]
  split
  · rw [Option.map_map]
    rfl
  · rfl

def isScan (r : Place × Notice) : Bool := r.2.code == .searchInLoop

theorem filter_slowCall? (p : Parsed) (x : Place) :
    (slowCall? p x).filter isScan = (scanAt? p x).map fun r => (r.1, searchNotice r.2) := by
  have hscan (x : Place) (method : String) : isScan (x, searchNotice method) = true := rfl
  have hblocking (x : Place) (method : String) : isScan (x, blockingNotice method) = false := rfl
  rw [slowCall?, scanAt?]
  cases calledMethod? p x with
  | none => simp
  | some method =>
    dsimp only
    by_cases hsearch : searchMethods.contains method
    · by_cases hloop : isInLoop x
      · rw [if_pos hsearch, if_pos hloop, if_pos hloop, Option.filter_some_pos (hscan x method),
          Option.filter_some_pos hsearch]
        rfl
      · rw [if_pos hsearch, if_neg hloop, if_neg hloop]
        rfl
    · have hnone : (if blockingMethods.contains method then some (x, blockingNotice method) else none).filter isScan =
          none := by
        split
        · exact Option.filter_some_neg (hblocking x method)
        · rfl
      rw [if_neg hsearch, hnone, Option.filter_some_neg (eq_false_of_ne_true hsearch)]
      split <;> rfl

theorem slowKey_isScan {r s : Place × Notice} (h : slowKey r = slowKey s) : isScan r = isScan s := by
  unfold slowKey at h
  unfold isScan
  split at h <;> split at h <;> simp_all

theorem onScan_toFinding (n : Notice) (path : String) (range : LineRange) (snippet : Option String) :
    ((n.toFinding path range snippet).rule == some "no-nested-array-methods") = (n.code == .searchInLoop) := by
  have hname : ∀ c : Code, (some c.name == some "no-nested-array-methods") = (c == .searchInLoop) := by
    intro c
    cases c <;> decide
  exact hname n.code

theorem filter_performance (p : Parsed) :
    (performance p).filter (·.rule == some "no-nested-array-methods") =
      (firstsBy (fun r : Place × String => scanKey (r.1.node, r.2)) (p.top.walk.filterMap (scanAt? p))).map
        fun r => p.reportLine r.1 (searchNotice r.2) := by
  have hfilter :
      (fun r : Place × Notice => (p.reportLine r.1 r.2).rule == some "no-nested-array-methods") = isScan := by
    funext r
    exact onScan_toFinding r.2 _ _ _
  have hscans : (p.top.walk.filterMap (slowCall? p)).filter isScan =
      (p.top.walk.filterMap (scanAt? p)).map fun r => (r.1, searchNotice r.2) := by
    rw [List.filter_filterMap, List.map_filterMap]
    simp only [filter_slowCall?]
  let move (b : Nat × Nat) : Nat × Nat × List Nat := (b.1, b.2, [])
  have hmove (a b : Nat × Nat) (h : move a = move b) : a = b := by
    simpa [move, Prod.ext_iff] using h
  have hkey (r : Place × String) : slowKey (r.1, searchNotice r.2) = move (scanKey (r.1.node, r.2)) := rfl
  rw [performance, List.filter_map]
  change ((firstsBy slowKey _).filter fun r => (p.reportLine r.1 r.2).rule == some "no-nested-array-methods").map _ = _
  rw [hfilter, firstsBy_filter fun _ _ => slowKey_isScan, hscans, firstsBy_map hmove hkey, List.map_map]
  rfl

theorem deepNesting_eq_run (p : Parsed) : deepNesting p =
    (nestingDescent.run (nestingKey p) 0 p.root).map fun r => p.report (top r.1) (deepNesting.notice r.2) := by
  have hrun : nestingDescent.run (nestingKey p) 0 p.root = _ := Descent.run_eq nestingDescent_meets p.root
  have hkey (x : Place) : nestingKey p (x.node, depthOf x) = id (deepNesting.position p x) := rfl
  rw [hrun, filterMap_nesting, firstsBy_map (fun _ _ => id) hkey, List.map_map]
  rfl

theorem scans_eq_run (p : Parsed) : (performance p).filter (·.rule == some "no-nested-array-methods") =
    ((scanDescent p).run scanKey false p.root).map fun r => p.reportLine (top r.1) (searchNotice r.2) := by
  have hrun : (scanDescent p).run scanKey false p.root = _ := Descent.run_eq (scanDescent_meets p) p.root
  have hkey (r : Place × String) : scanKey (r.1.node, r.2) = id (scanKey (r.1.node, r.2)) := rfl
  rw [hrun, filterMap_scan, firstsBy_map (fun _ _ => id) hkey, List.map_map, filter_performance]
  rfl

theorem scanAt?_eq_some {r : Place × String} :
    scanAt? p x = some r ↔ isInLoop x ∧ calledMethod? p x = some r.2 ∧ r.2 ∈ searchMethods ∧ r.1 = x := by
  unfold scanAt?
  split
  · rename_i hloop
    rw [Option.map_eq_some_iff]
    simp only [Option.filter_eq_some_iff, List.contains_iff_mem]
    constructor
    · rintro ⟨m, ⟨hm, hsearch⟩, rfl⟩
      exact ⟨hloop, hm, hsearch, rfl⟩
    · rintro ⟨-, hm, hsearch, rfl⟩
      exact ⟨r.2, ⟨hm, hsearch⟩, rfl⟩
  · rename_i hloop
    simp [hloop]

/-- These are the keys of what there is to report, each one once. -/
structure Once {κ : Type} (keys : List κ) (wanted : κ → Prop) : Prop where
  nodup : keys.Nodup
  mem_iff : ∀ k, k ∈ keys ↔ wanted k

/-- Both rules report what one way down the tree reports: the one with the count of levels as the depth, and where a
place of the same beginning has not been reported; the other below a loop, and where a call of the same bytes has not
been reported. So no beginning and no range of bytes is reported twice, and none is left out. -/
theorem nesting_descends (p : Parsed) :
    let deep := nestingDescent.run (nestingKey p) 0 p.root
    let scans := (scanDescent p).run scanKey false p.root
    deepNesting p = deep.map (fun r => p.report (top r.1) (deepNesting.notice r.2)) ∧
    (performance p).filter (·.rule == some "no-nested-array-methods") =
      scans.map (fun r => p.reportLine (top r.1) (searchNotice r.2)) ∧
    Once (deep.map (nestingKey p))
      (fun k => ∃ x ∈ p.top.walk, isTooDeep x ∧ k = (p.row x.node.start, p.column x.node.start)) ∧
    Once (scans.map scanKey) fun k => ∃ x ∈ p.top.walk, isInLoop x ∧
      (∃ method ∈ searchMethods, calledMethod? p x = some method) ∧ k = (x.node.start, x.node.stop) := by
  intro deep scans
  refine ⟨deepNesting_eq_run p, scans_eq_run p, ⟨?_, fun k => ?_⟩, ⟨?_, fun k => ?_⟩⟩
  · exact Descent.nodup_run nestingDescent_meets p.root
  · have hmem : k ∈ deep.map (nestingKey p) ↔ _ := Descent.mem_map_run nestingDescent_meets p.root k
    rw [hmem, filterMap_nesting, List.map_map, List.mem_map]
    constructor
    · rintro ⟨x, hx, rfl⟩
      obtain ⟨hwalk, hdeep⟩ := List.mem_filter.1 hx
      exact ⟨x, hwalk, hdeep, rfl⟩
    · rintro ⟨x, hwalk, hdeep, rfl⟩
      exact ⟨x, List.mem_filter.2 ⟨hwalk, hdeep⟩, rfl⟩
  · exact Descent.nodup_run (scanDescent_meets p) p.root
  · have hmem : k ∈ scans.map scanKey ↔ _ := Descent.mem_map_run (scanDescent_meets p) p.root k
    rw [hmem, filterMap_scan, List.map_map, List.mem_map]
    constructor
    · rintro ⟨r, hr, rfl⟩
      obtain ⟨x, hwalk, hx⟩ := List.mem_filterMap.1 hr
      obtain ⟨hloop, hmethod, hsearch, rfl⟩ := scanAt?_eq_some.1 hx
      exact ⟨r.1, hwalk, hloop, ⟨r.2, hsearch, hmethod⟩, rfl⟩
    · rintro ⟨x, hwalk, hloop, ⟨method, hsearch, hmethod⟩, rfl⟩
      exact ⟨(x, method), List.mem_filterMap.2 ⟨x, hwalk, scanAt?_eq_some.2 ⟨hloop, hmethod, hsearch, rfl⟩⟩, rfl⟩

end Rule
end CodeAudit
