import CodeAudit.Proofs.Text.Utf8
import CodeAudit.Proofs.Tree.Preorder
import CodeAudit.Tree.Query
import Mathlib.Data.List.Basic

set_option autoImplicit false

namespace CodeAudit

namespace Node

mutual

/-- The node and everything below it, `k` bytes further on. -/
def down (k : Nat) : Node → Node
  | ⟨kind, named, field, start, stop, children⟩ =>
    ⟨kind, named, field, start + k, stop + k, downEach k children⟩

def downEach (k : Nat) : List Node → List Node
  | [] => []
  | c :: r => down k c :: downEach k r

end

variable (k : Nat) (n : Node)

theorem downEach_eq (cs : List Node) : downEach k cs = cs.map (down k) := by
  induction cs with
  | nil => rfl
  | cons c r ih => rw [downEach, ih, List.map_cons]

@[simp] theorem kind_down : (n.down k).kind = n.kind := by
  cases n
  rfl

@[simp] theorem named_down : (n.down k).named = n.named := by
  cases n
  rfl

@[simp] theorem field_down : (n.down k).field = n.field := by
  cases n
  rfl

@[simp] theorem start_down : (n.down k).start = n.start + k := by
  cases n
  rfl

@[simp] theorem stop_down : (n.down k).stop = n.stop + k := by
  cases n
  rfl

@[simp] theorem children_down : (n.down k).children = n.children.map (down k) := by
  cases n
  rw [down, downEach_eq]

end Node

namespace Place

/-- The place in the tree that lies `k` bytes further on. -/
def down (k : Nat) (x : Place) : Place := ⟨x.node.down k, x.trail.map fun s => (s.1, s.2.down k)⟩

variable (k : Nat) (x : Place)

@[simp] theorem node_down : (x.down k).node = x.node.down k := rfl

@[simp] theorem kind_down : (x.down k).kind = x.kind := x.node.kind_down k

@[simp] theorem route_down : (x.down k).route = x.route := by
  simp [route, down, Function.comp_def]

@[simp] theorem isAt_down (y : Place) : (x.down k).isAt (y.down k) = x.isAt y := by
  simp [isAt]

@[simp] theorem parent?_down : (x.down k).parent? = x.parent?.map (down k) := by
  cases x with
  | mk n trail => cases trail <;> rfl

theorem climb_down (trail : List (Nat × Node)) :
    climb (trail.map fun s => (s.1, s.2.down k)) = (climb trail).map (down k) := by
  induction trail with
  | nil => rfl
  | cons s t ih => simp [climb, down, ih]

@[simp] theorem ancestors_down : (x.down k).ancestors = x.ancestors.map (down k) := climb_down k x.trail

@[simp] theorem children_down : (x.down k).children = x.children.map (down k) := by
  simp [children, down, List.zipIdx_map, Function.comp_def]

@[simp] theorem namedChildren_down : (x.down k).namedChildren = x.namedChildren.map (down k) := by
  simp [namedChildren, List.filter_map, Function.comp_def]

@[simp] theorem child?_down (field : String) : (x.down k).child? field = (x.child? field).map (down k) := by
  have hfield : (fun c : Place => c.node.field == some field) ∘ down k = fun c => c.node.field == some field :=
    funext fun c => by simp
  rw [child?, child?, children_down, List.find?_map, hfield]

@[simp] theorem isFunction_down : (x.down k).isFunction = x.isFunction := by simp [isFunction]

@[simp] theorem isLoop_down : (x.down k).isLoop = x.isLoop := by simp [isLoop]

@[simp] theorem isAsync_down : (x.down k).isAsync = x.isAsync := by
  simp [isAsync, Function.comp_def]

theorem below_down {opens : Place → Bool} (h : ∀ x : Place, opens (x.down k) = opens x) :
    below opens (x.down k) = (below opens x).map (down k) := by
  rw [below, below, h, namedChildren_down]
  split <;> rfl

theorem drain_down {opens : Place → Bool} (h : ∀ x : Place, opens (x.down k) = opens x) (pile : List Place) :
    drain opens (pile.map (down k)) = (drain opens pile).map (down k) := by
  induction pile using drain.induct opens with
  | case1 => rw [List.map_nil, drain, List.map_nil]
  | case2 x pile ih =>
    rw [push_reverse] at ih
    rw [List.map_cons, drain_cons, drain_cons, below_down k x h, ← List.map_append, ih, List.map_cons]

@[simp] theorem walk_down : (x.down k).walk = x.walk.map (down k) := drain_down k (fun _ => rfl) [x]

@[simp] theorem scope_down : (x.down k).scope = x.scope.map (down k) := by
  rw [scope_eq_drain, scope_eq_drain, namedChildren_down]
  exact drain_down k (fun x => by rw [isFunction_down]) x.namedChildren

mutual

theorem height_down (n : Node) : height (n.down k) = height n := by
  obtain ⟨kind, named, field, start, stop, children⟩ := n
  rw [Node.down, height, height, heightEach_down children]

theorem heightEach_down (cs : List Node) : heightEach (Node.downEach k cs) = heightEach cs := by
  cases cs with
  | nil => rfl
  | cons c r => rw [Node.downEach, heightEach, heightEach, height_down c, heightEach_down r]

end

@[simp] theorem kindIs_down (kind : String) (x : Option Place) : kindIs kind (x.map (down k)) = kindIs kind x := by
  cases x <;> simp [kindIs]

theorem unwrapFrom_down (trail : List (Nat × Node)) (fuel : Nat) (n : Node) :
    unwrapFrom (trail.map fun s => (s.1, s.2.down k)) fuel (n.down k) = (unwrapFrom trail fuel n).map (down k) := by
  induction fuel generalizing trail n with
  | zero => rfl
  | succ fuel ih =>
    have hnamed := namedChildren_down k ⟨n, trail⟩
    simp only [down] at hnamed
    rw [unwrapFrom, unwrapFrom, Node.kind_down, hnamed]
    split
    · cases (Place.mk n trail).namedChildren with
      | nil => rfl
      | cons c cs => exact ih c.trail c.node
    · rfl

@[simp] theorem unwrapParens_down (x : Option Place) : unwrapParens (x.map (down k)) = (unwrapParens x).map (down k) := by
  cases x with
  | none => rfl
  | some x =>
    have hheight : height (x.down k).node = height x.node := height_down k x.node
    simp only [unwrapParens, Option.map_some, Option.bind_some, hheight]
    exact unwrapFrom_down k x.trail _ x.node

@[simp] theorem declarationKeyword?_down : (x.down k).declarationKeyword? = x.declarationKeyword? := by
  rw [declarationKeyword?, declarationKeyword?, parent?_down]
  cases x.parent? with
  | none => rfl
  | some d => simp [Function.comp_def]

@[simp] theorem isInterpolated_down (x : Option Place) : isInterpolated (x.map (down k)) = isInterpolated x := by
  cases x <;> simp [isInterpolated, Function.comp_def]

@[simp] theorem firstArgument?_down : (x.down k).firstArgument? = x.firstArgument?.map (down k) := by
  rw [firstArgument?, firstArgument?, child?_down]
  cases x.child? "arguments" with
  | none => rfl
  | some args =>
    simp only [Option.map_some, kind_down, namedChildren_down, List.filter_map, Function.comp_def, List.head?_map]
    split <;> rfl

end Place

theorem Text.lines_feeds (k : Nat) (s : List Char) :
    lines (List.replicate k '\n' ++ s) = List.replicate k [] ++ lines s := by
  induction k with
  | zero => rfl
  | succ k ih =>
    rw [List.replicate_succ, List.replicate_succ, List.cons_append, lines, List.splitOn_cons_eq_if_modifyHead,
      if_pos (beq_self_eq_true '\n'), List.cons_append, ← ih, lines]

namespace Parsed

def down (k : Nat) (p : Parsed) : Parsed :=
  .of p.path (String.ofList (List.replicate k '\n' ++ p.text.toList)) (p.root.down k)

variable (k : Nat) (p : Parsed) (x : Place)

@[simp] theorem path_down : (p.down k).path = p.path := rfl

@[simp] theorem top_down : (p.down k).top = p.top.down k := rfl

theorem bytes_down : (p.down k).bytes = List.replicate k 10 ++ p.bytes := by
  rw [(p.down k).bytes_eq, p.bytes_eq, down, of, String.toList_ofList, Text.Utf8.encode_append, Text.Utf8.encode_feeds]

theorem take_down (offset : Nat) :
    (p.down k).bytes.take (offset + k) = List.replicate k 10 ++ p.bytes.take offset := by
  rw [bytes_down, List.take_append, List.length_replicate, Nat.add_sub_cancel, List.take_of_length_le (by simp)]

@[simp] theorem row_down (offset : Nat) : (p.down k).row (offset + k) = p.row offset + k := by
  rw [row, take_down, List.count_append, List.count_replicate_self, row, Nat.add_comm]

@[simp] theorem column_down (offset : Nat) : (p.down k).column (offset + k) = p.column offset := by
  have hfeeds (before : List UInt8) : ((before ++ List.replicate k 10).takeWhile (· ≠ 10)).length =
      (before.takeWhile (· ≠ 10)).length := by
    induction before with
    | nil => cases k <;> rfl
    | cons b r ih =>
      by_cases hb : b = 10
      · simp [hb]
      · simpa [hb] using ih
  rw [column, column, take_down, List.reverse_append, List.reverse_replicate, hfeeds, List.length_append,
    List.length_replicate, Nat.add_sub_add_right]

@[simp] theorem between_down (start stop : Nat) :
    (p.down k).between (start + k) (stop + k) = p.between start stop := by
  rw [between, take_down, Nat.add_comm start, ← List.drop_drop]
  simp [between]

@[simp] theorem textOf_down : (p.down k).textOf (x.down k) = p.textOf x := by simp [textOf]

@[simp] theorem textOf?_down (x : Option Place) : (p.down k).textOf? (x.map (Place.down k)) = p.textOf? x := by
  cases x <;> simp [textOf?]

@[simp] theorem startRow_down : (p.down k).startRow (x.down k) = p.startRow x + k := by simp [startRow]

@[simp] theorem stopRow_down : (p.down k).stopRow (x.down k) = p.stopRow x + k := by simp [stopRow]

@[simp] theorem lineOf_down : (p.down k).lineOf (x.down k) = p.lineOf x := by
  have htext : (p.down k).text.toList = List.replicate k '\n' ++ p.text.toList := String.toList_ofList
  rw [lineOf, lineOf, htext, Text.lines_feeds, startRow_down, List.getElem?_append_right (by simp),
    List.length_replicate, Nat.add_sub_cancel]

@[simp] theorem memberParts?_down (x : Option Place) :
    (p.down k).memberParts? (x.map (Place.down k)) = p.memberParts? x := by
  cases x with
  | none => rfl
  | some x =>
    simp only [memberParts?, Option.map_some, Place.kind_down, Place.child?_down]
    cases x.child? "object" <;> cases x.child? "property" <;> simp

@[simp] theorem stringValue_down : (p.down k).stringValue (x.down k) = p.stringValue x := by simp [stringValue]

theorem holder?_down : functionName.holder? (p.down k) (x.down k) = functionName.holder? p x := by
  simp only [functionName.holder?, Place.kind_down, Place.child?_down]
  cases x.child? "name" <;> cases x.child? "key" <;> cases x.child? "left" <;> simp

@[simp] theorem functionName_down : (p.down k).functionName (x.down k) = p.functionName x := by
  simp only [functionName, Place.child?_down, Place.parent?_down]
  cases x.child? "name" with
  | some n => simp
  | none => cases x.parent? <;> simp [holder?_down]

end Parsed
end CodeAudit
