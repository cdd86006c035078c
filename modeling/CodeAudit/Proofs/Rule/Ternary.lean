import CodeAudit.Proofs.Tree.Parentheses
import CodeAudit.Rule.Statement

set_option autoImplicit false

namespace CodeAudit.Rule
open Place
variable {p : Parsed} {x : Place}

/-- A branch of the place is a ternary within these layers of parentheses. -/
def Nests (x : Place) (ls : List Place) : Prop :=
  ∃ field ∈ ["consequence", "alternative"], ∃ b t,
    x.child? field = some b ∧ Layers b ls t ∧ t.kind = "ternary_expression"

theorem kindIs_unwrapParens_child? (h : x.node.all Node.isFilled) (field : String) :
    kindIs "ternary_expression" (unwrapParens (x.child? field)) ↔ ∃ ls b t, x.child? field = some b ∧ Layers b ls t ∧
      t.kind = "ternary_expression" ∧ ∀ l ∈ ls, l.opensWithComment = false := by
  cases hb : x.child? field with
  | none => simp [unwrapParens, kindIs]
  | some b =>
    have hchild : b ∈ x.children := List.mem_of_find?_eq_some hb
    have hfilled := Node.all_child h (node_mem_children hchild)
    constructor
    · intro hkind
      obtain ⟨ls, t, hlayers⟩ := exists_layers hfilled
      exact ⟨ls, b, t, rfl, hlayers, (hlayers.kindIs_unwrapParens (by decide)).1 hkind⟩
    · rintro ⟨ls, b', t, hb', hlayers, ht⟩
      cases hb'
      exact (hlayers.kindIs_unwrapParens (by decide)).2 ht

theorem isNestedTernary_iff (h : x.node.all Node.isFilled) : isNestedTernary x ↔
    x.kind = "ternary_expression" ∧ ∃ ls, Nests x ls ∧ ∀ l ∈ ls, l.opensWithComment = false := by
  rw [isNestedTernary, Bool.and_eq_true, Bool.or_eq_true, beq_iff_eq, kindIs_unwrapParens_child? h,
    kindIs_unwrapParens_child? h]
  refine and_congr_right fun _ => ⟨?_, ?_⟩
  · rintro (⟨ls, b, t, hb, hlayers, ht, hopen⟩ | ⟨ls, b, t, hb, hlayers, ht, hopen⟩)
    · exact ⟨ls, ⟨_, List.mem_cons_self, b, t, hb, hlayers, ht⟩, hopen⟩
    · exact ⟨ls, ⟨_, List.mem_cons_of_mem _ List.mem_cons_self, b, t, hb, hlayers, ht⟩, hopen⟩
  · rintro ⟨ls, ⟨field, hfield, b, t, hb, hlayers, ht⟩, hopen⟩
    simp only [List.mem_cons, List.not_mem_nil, or_false] at hfield
    obtain rfl | rfl := hfield
    · exact .inl ⟨ls, b, t, hb, hlayers, ht, hopen⟩
    · exact .inr ⟨ls, b, t, hb, hlayers, ht, hopen⟩

/-- Where each pair of parentheses holds one expression, a ternary is reported if one of its branches is a ternary
within any number of parentheses, and none of these opens with a comment. -/
theorem nestedTernary_layers (h : p.root.all Node.isFilled) :
    nestedTernary p = (p.top.walk.filter isNestedTernary).map (p.report · nestedTernary.notice) ∧
    ∀ x ∈ p.top.walk, x.kind = "ternary_expression" →
      (x ∈ p.top.walk.filter isNestedTernary ↔ ∃ ls, Nests x ls ∧ ∀ l ∈ ls, l.opensWithComment = false) := by
  refine ⟨rfl, fun x hx hkind => ?_⟩
  have hfilled : x.node.all Node.isFilled := all_of_mem_walk h hx
  rw [List.mem_filter, isNestedTernary_iff hfilled, and_iff_right hx, and_iff_right hkind]

def tokenNode (text : String) (start : Nat) : Node := ⟨text, false, none, start, start + 1, []⟩

def nameNode (field : String) (start : Nat) : Node := ⟨"identifier", true, some field, start, start + 1, []⟩

def commentNode (start : Nat) : Node := ⟨"comment", true, none, start, start + 4, []⟩

def parenthesesNode (field : Option String) (start stop : Nat) (inner : List Node) : Node :=
  ⟨"parenthesized_expression", true, field, start, stop, tokenNode "(" start :: (inner ++ [tokenNode ")" (stop - 1)])⟩

def ternaryNode (start : Nat) (consequence : Node) (colon : Nat) : Node :=
  ⟨"ternary_expression", true, none, start, colon + 3, [nameNode "condition" start, tokenNode "?" (start + 2),
    consequence, tokenNode ":" colon, nameNode "alternative" (colon + 2)]⟩

def statementNode (expression : Node) : Node :=
  ⟨"expression_statement", true, none, expression.start, expression.stop, [expression]⟩

def programNode (expression : Node) : Node := ⟨"program", true, none, 0, expression.stop, [statementNode expression]⟩

def placeOf (expression : Node) : Place := ⟨expression, [(0, statementNode expression), (0, programNode expression)]⟩

/-- `x ? ((y ? a : b) /**/) : z` -/
theorem nestedTernary_layers_behind :
    let inner := parenthesesNode none 5 16 [ternaryNode 6 (nameNode "consequence" 10) 12]
    let outer := parenthesesNode (some "consequence") 4 22 [inner, commentNode 17]
    let whole := ternaryNode 0 outer 23
    let p := Parsed.of "a.js" "x ? ((y ? a : b) /**/) : z" (programNode whole)
    p.root.all Node.isFilled ∧ placeOf whole ∈ p.top.walk ∧ (∃ ls, Nests (placeOf whole) ls ∧ ls.length = 2) ∧
      p.report (placeOf whole) nestedTernary.notice ∈ nestedTernary p := by
  intro inner outer whole p
  have hfilled : p.root.all Node.isFilled := by decide +kernel
  have hwalk : placeOf whole ∈ p.top.walk := List.mem_of_getElem? (i := 2) rfl
  have hnests : Nests (placeOf whole) [⟨outer, (2, whole) :: (placeOf whole).trail⟩,
      ⟨inner, (1, outer) :: (2, whole) :: (placeOf whole).trail⟩] :=
    ⟨"consequence", List.mem_cons_self, _, _, rfl, .layer rfl rfl (.layer rfl rfl (.bare (by decide))), rfl⟩
  obtain ⟨hreports, hreported⟩ := nestedTernary_layers hfilled
  have hmem := (hreported _ hwalk rfl).2 ⟨_, hnests, by decide⟩
  refine ⟨hfilled, hwalk, ⟨_, hnests, rfl⟩, ?_⟩
  rw [hreports]
  exact List.mem_map_of_mem hmem

/-- Nothing is reported of `x ? (/**/ y ? a : b) : z`. -/
theorem nestedTernary_misses : ¬∀ p : Parsed, p.root.all Node.isFilled → ∀ x ∈ p.top.walk,
    x.kind = "ternary_expression" → (∃ ls, Nests x ls) → p.report x nestedTernary.notice ∈ nestedTernary p := by
  intro hall
  let layer := parenthesesNode (some "consequence") 4 20 [commentNode 5, ternaryNode 10 (nameNode "consequence" 14) 16]
  let whole := ternaryNode 0 layer 21
  let p := Parsed.of "a.js" "x ? (/**/ y ? a : b) : z" (programNode whole)
  have hfilled : p.root.all Node.isFilled := by decide +kernel
  have hnothing : (nestedTernary p).isEmpty := by decide +kernel
  have hnests : Nests (placeOf whole) [⟨layer, (2, whole) :: (placeOf whole).trail⟩] :=
    ⟨"consequence", List.mem_cons_self, _, _, rfl, .layer rfl rfl (.bare (by decide)), rfl⟩
  have hmem := hall p hfilled (placeOf whole) (List.mem_of_getElem? (i := 2) rfl) rfl ⟨_, hnests⟩
  rw [List.isEmpty_iff.1 hnothing] at hmem
  cases hmem

end CodeAudit.Rule
