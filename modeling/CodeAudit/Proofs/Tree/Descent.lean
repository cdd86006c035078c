import CodeAudit.Proofs.Rule.Firsts
import CodeAudit.Proofs.Tree.Preorder

/-!
Ways down a tree that carry something along, such as a count of what they have passed, and note what they have
reported. Looking up from each place of the walk, and leaving out later what is reported twice, comes to the same.
-/
set_option autoImplicit false

namespace CodeAudit

/-- A way down: what is carried on from a node to its children, and what is reported at a node by what is carried. -/
structure Descent (α β : Type) where
  carry : α → Node → α
  report? : α → Node → Option β

namespace Descent
open Place Rule
variable {α β κ : Type} [BEq κ] (d : Descent α β) (key : β → κ)

def mark (seen : List κ) : Option β → List β × List κ
  | none => ([], seen)
  | some b => if seen.contains (key b) then ([], seen) else ([b], key b :: seen)

mutual

/-- The reports at a node and below it, the node first and each child with all below it before the next, and the keys
that are known then. -/
def runFrom (a : α) (seen : List κ) : Node → List β × List κ
  | ⟨kind, named, field, start, stop, children⟩ =>
    let n : Node := ⟨kind, named, field, start, stop, children⟩
    let own := mark key seen (d.report? a n)
    let below := runEach (d.carry a n) own.2 children
    (own.1 ++ below.1, below.2)

def runEach (a : α) (seen : List κ) : List Node → List β × List κ
  | [] => ([], seen)
  | c :: r =>
    let first := if c.named then runFrom a seen c else ([], seen)
    let rest := runEach a first.2 r
    (first.1 ++ rest.1, rest.2)

end

def run (a : α) (root : Node) : List β := (runFrom d key a [] root).1

def Meets (up : Place → α) : Prop :=
  ∀ (trail : List (Nat × Node)) (n c : Node) (i : Nat), up ⟨c, (i, n) :: trail⟩ = d.carry (up ⟨n, trail⟩) n

/-- What is reported at a place when what counts is seen from there. -/
def reportAt? (up : Place → α) (x : Place) : Option β := d.report? (up x) x.node

def firstsFrom (seen : List κ) (bs : List β) : List β × List κ :=
  (firstsBy.go key seen bs, ((firstsBy.go key seen bs).map key).reverse ++ seen)

theorem firstsFrom_append (seen : List κ) (bs cs : List β) : firstsFrom key seen (bs ++ cs) =
    ((firstsFrom key seen bs).1 ++ (firstsFrom key (firstsFrom key seen bs).2 cs).1,
      (firstsFrom key (firstsFrom key seen bs).2 cs).2) := by
  simp only [firstsFrom, go_firstsBy_append, List.map_append, List.reverse_append, List.append_assoc]

theorem mark_eq (seen : List κ) (b? : Option β) : mark key seen b? = firstsFrom key seen b?.toList := by
  cases b? with
  | none => rfl
  | some b =>
    rw [mark, firstsFrom, Option.toList_some, firstsBy.go, firstsBy.go]
    split <;> rfl

variable {d key} {up : Place → α}

mutual

/-- The invariant of the way down: its reports are the firsts of what is reported along the walk, and the keys it
knows are theirs. -/
theorem runFrom_eq (h : d.Meets up) (seen : List κ) (trail : List (Nat × Node)) (n : Node) :
    runFrom d key (up ⟨n, trail⟩) seen n = firstsFrom key seen ((walkFrom trail n).filterMap (d.reportAt? up)) := by
  obtain ⟨kind, named, field, start, stop, children⟩ := n
  have hown (x : Place) (ys : List Place) :
      (x :: ys).filterMap (d.reportAt? up) = (d.reportAt? up x).toList ++ ys.filterMap (d.reportAt? up) := by
    rw [List.filterMap_cons]
    cases d.reportAt? up x <;> rfl
  rw [walkFrom, hown, firstsFrom_append, ← mark_eq, ← runEach_eq h _ _ _ 0 children, runFrom]
  rfl

theorem runEach_eq (h : d.Meets up) (seen : List κ) (parent : Node) (trail : List (Nat × Node)) (i : Nat)
    (cs : List Node) : runEach d key (d.carry (up ⟨parent, trail⟩) parent) seen cs =
      firstsFrom key seen ((walkEach parent trail i cs).filterMap (d.reportAt? up)) := by
  cases cs with
  | nil => rfl
  | cons c r =>
    have hfirst : (if c.named then runFrom d key (d.carry (up ⟨parent, trail⟩) parent) seen c else ([], seen)) =
        firstsFrom key seen
          ((if c.named then walkFrom ((i, parent) :: trail) c else []).filterMap (d.reportAt? up)) := by
      split
      · rw [← h trail parent c i]
        exact runFrom_eq h seen ((i, parent) :: trail) c
      · rfl
    rw [walkEach, List.filterMap_append, firstsFrom_append, ← hfirst, ← runEach_eq h _ parent trail (i + 1) r, runEach]

end

/-- Going down the tree reports what the places of the walk report that look up, the first of each key. -/
theorem run_eq (h : d.Meets up) (root : Node) :
    d.run key (up (top root)) root = firstsBy key ((top root).walk.filterMap (d.reportAt? up)) := by
  rw [walk_eq]
  exact congrArg Prod.fst (runFrom_eq h [] [] root)

theorem nodup_run [LawfulBEq κ] (h : d.Meets up) (root : Node) : ((d.run key (up (top root)) root).map key).Nodup := by
  rw [run_eq h]
  exact nodup_map_go_firstsBy [] _

theorem mem_map_run [LawfulBEq κ] (h : d.Meets up) (root : Node) (k : κ) :
    k ∈ (d.run key (up (top root)) root).map key ↔ k ∈ ((top root).walk.filterMap (d.reportAt? up)).map key := by
  rw [run_eq h, firstsBy, mem_map_go_firstsBy, and_iff_left List.not_mem_nil]

end Descent
end CodeAudit
