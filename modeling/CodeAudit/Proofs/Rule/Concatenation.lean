import CodeAudit.Proofs.Rule.Security
import CodeAudit.Proofs.Text.Case

/-!
Sums given to a query. Of a sum only the two operands are looked at that are added last. In a chain of sums, added from
the left, the first of these is a sum again and counts as a value that is put in, so that it is the last operand of the
chain that decides.
-/
set_option autoImplicit false

namespace CodeAudit.Rule
variable {p : Parsed} {x y l r : Place} {es : List Place} {fs : List Finding}

def onQuery (f : Finding) : Bool := f.rule == some Code.sqlInjection.name

def sqlRisk (p : Parsed) (x : Place) : Bool :=
  x.kind == "call_expression" && namesQuery (calleeName p (x.child? "function")) && buildsQuery x

theorem filter_onQuery {cs : List Code} (h : ∀ f ∈ fs, Bears cs f) (hc : .sqlInjection ∉ cs) : fs.filter onQuery = [] :=
  filter_of_bears h hc

theorem filter_sqlCalls (p : Parsed) (x : Place) (callee : Option Place) :
    (sqlCalls p x callee).filter onQuery =
      if namesQuery (calleeName p callee) && buildsQuery x then [p.reportLine x sqlNotice] else [] := by
  have hquery : onQuery (p.reportLine x sqlNotice) = true := beq_iff_eq.2 rfl
  unfold sqlCalls
  grind

theorem filter_callFindings (p : Parsed) (x : Place) :
    (callFindings p x).filter onQuery =
      if x.kind != "new_expression" && namesQuery (calleeName p (x.child? "function")) && buildsQuery x then
        [p.reportLine x sqlNotice]
      else [] := by
  have hcode (name : String) : (codeFromText p x name).filter onQuery = [] :=
    filter_onQuery (fun f => bears_codeFromText) (by decide)
  have hwrites (callee : Option Place) : (documentWrites p x callee).filter onQuery = [] :=
    filter_onQuery (fun f => bears_documentWrites) (by decide)
  unfold callFindings
  dsimp only
  split
  · rename_i hnew
    rw [bne, hnew, Bool.not_true, Bool.false_and, Bool.false_and, if_neg Bool.false_ne_true]
    grind
  · rename_i hnew
    rw [List.filter_append, List.filter_append, hwrites, List.append_nil, filter_sqlCalls,
      bne, eq_false_of_ne_true hnew, Bool.not_false, Bool.true_and, List.append_left_eq_self]
    grind

theorem filter_securityAt (p : Parsed) (x : Place) :
    (securityAt p x).filter onQuery = if sqlRisk p x then [p.reportLine x sqlNotice] else [] := by
  by_cases hcall : (x.kind == "call_expression" || x.kind == "new_expression") = true
  · have hat : securityAt p x = callFindings p x := if_pos hcall
    rw [hat, filter_callFindings]
    unfold sqlRisk
    grind
  · have hcodes : Code.sqlInjection ∉ securityCodes x.kind := by
      have hassignment : Code.sqlInjection ∉ assignmentCodes := by decide
      unfold securityCodes
      grind
    have hnone : sqlRisk p x = false := by
      unfold sqlRisk
      grind
    rw [filter_onQuery (fun f => bears_securityAt) hcodes, hnone]
    rfl

theorem filter_security (p : Parsed) :
    (security p).filter onQuery = (p.top.walk.filter (sqlRisk p)).map (p.reportLine · sqlNotice) := by
  rw [security, List.filter_flatMap]
  simp only [filter_securityAt, flatMap_if]

theorem reportLine_mem_security (h : x ∈ p.top.walk.filter (sqlRisk p)) : p.reportLine x sqlNotice ∈ security p := by
  have hmem := List.mem_map_of_mem (f := (p.reportLine · sqlNotice)) h
  rw [← filter_security] at hmem
  exact (List.mem_filter.1 hmem).1

structure IsSum (x l r : Place) : Prop where
  kind : x.kind = "binary_expression"
  operator : Place.kindIs "+" (x.child? "operator")
  left : x.child? "left" = some l
  right : x.child? "right" = some r

/-- A literal or a name. -/
def IsOperand (x : Place) : Prop := x.kind = "string" ∨ x.kind = "identifier"

/-- The place is the sum of these operands, added from the left. -/
inductive Chain : List Place → Place → Prop where
  | pair {x l r : Place} (hl : IsOperand l) (hr : IsOperand r) (hx : IsSum x l r) : Chain [l, r] x
  | snoc {es : List Place} {x l r : Place} (hl : Chain es l) (hr : IsOperand r) (hx : IsSum x l r) : Chain (es ++ [r]) x

/-- There are both literals and names. -/
def Mixed (es : List Place) : Prop := (∃ e ∈ es, e.kind = "string") ∧ ∃ e ∈ es, e.kind = "identifier"

def EndsInLiteral (es : List Place) : Prop := ∃ e, es.getLast? = some e ∧ e.kind = "string"

theorem IsOperand.isStringKind_iff (h : IsOperand x) : isStringKind x.kind ↔ x.kind = "string" := by
  obtain h | h := h <;> rw [h] <;> decide

theorem IsSum.isConcatenation_iff (h : IsSum x l r) :
    isConcatenation (some x) ↔ (isStringKind l.kind ↔ ¬isStringKind r.kind) := by
  have hx : isConcatenation (some x) =
      ([l, r].any (isStringKind ·.kind) && [l, r].any (!isStringKind ·.kind)) := by
    simp [isConcatenation, h.kind, h.operator, h.left, h.right]
  rw [hx]
  cases hl : isStringKind l.kind <;> cases hr : isStringKind r.kind <;> simp [hl, hr]

theorem Chain.kind (h : Chain es x) : x.kind = "binary_expression" := by
  cases h with
  | pair _ _ hx | snoc _ _ hx => exact hx.kind

theorem Chain.two_le (h : Chain es x) : 2 ≤ es.length := by
  induction h with
  | pair => simp
  | snoc _ _ _ ih =>
    rw [List.length_append]
    omega

theorem Chain.operand (h : Chain es x) : ∀ e ∈ es, IsOperand e := by
  induction h with
  | pair hl hr => simp [hl, hr]
  | snoc _ hr _ ih => simpa [hr, or_imp, forall_and] using ih

/-- A chain of two is a concatenation if it is mixed, a longer one if it ends in a literal: what stands in front of its
last operand is no literal, whatever it is the sum of. -/
theorem Chain.isConcatenation_iff (h : Chain es x) :
    isConcatenation (some x) ↔ if es.length = 2 then Mixed es else EndsInLiteral es := by
  cases h with
  | @pair _ l r hl hr hx =>
    have htwo : [l, r].length = 2 := rfl
    rw [hx.isConcatenation_iff, hl.isStringKind_iff, hr.isStringKind_iff, if_pos htwo]
    obtain hl | hl := hl <;> obtain hr | hr := hr <;> simp [Mixed, hl, hr]
  | @snoc es _ l r hl hr hx =>
    have hlong : (es ++ [r]).length ≠ 2 := by
      have htwo := hl.two_le
      rw [List.length_append, List.length_singleton]
      omega
    have hsum : isStringKind l.kind = false := by
      rw [hl.kind]
      rfl
    rw [hx.isConcatenation_iff, hr.isStringKind_iff, if_neg hlong, hsum]
    obtain hr | hr := hr <;> simp [EndsInLiteral, hr]

theorem Chain.agrees_iff (h : Chain es x) :
    ((if es.length = 2 then Mixed es else EndsInLiteral es) ↔ Mixed es) ↔
      es.length = 2 ∨ (∀ e ∈ es, e.kind = "identifier") ∨ Mixed es ∧ EndsInLiteral es := by
  split
  · simp [*]
  · rename_i hlong
    have hne : es ≠ [] := fun he => by
      have htwo := h.two_le
      simp [he] at htwo
    have hlast : es.getLast? = some (es.getLast hne) := List.getLast?_eq_some_getLast hne
    have hmem : es.getLast hne ∈ es := List.getLast_mem hne
    have hends : EndsInLiteral es ↔ (es.getLast hne).kind = "string" := by simp [EndsInLiteral, hlast]
    obtain hliteral | hname := h.operand _ hmem
    · have hnot : ¬∀ e ∈ es, e.kind = "identifier" := fun hall => by simp [hall _ hmem] at hliteral
      simp [hends, hliteral, hlong, hnot]
    · have hmixed : Mixed es ↔ ¬∀ e ∈ es, e.kind = "identifier" := by
        constructor
        · rintro ⟨⟨e, he, hliteral⟩, -⟩ hall
          simp [hall e he] at hliteral
        · intro hall
          push Not at hall
          obtain ⟨e, he, hne⟩ := hall
          exact ⟨⟨e, he, (h.operand e he).resolve_right hne⟩, _, hmem, hname⟩
      simp [hends, hname, hlong, hmixed]

theorem buildsQuery_of_first (harg : x.firstArgument? = some y) (hy : y.kind = "binary_expression") :
    buildsQuery x = isConcatenation (some y) := by
  have hplain : Place.kindIs "template_string" (x.child? "arguments") = false := by
    unfold Place.firstArgument? at harg
    split at harg
    · cases harg
    · rename_i args hargs
      rw [hargs]
      split at harg
      · rename_i htemplate
        cases harg
        simp [hy] at htemplate
      · rename_i htemplate
        exact eq_false_of_ne_true htemplate
  rw [buildsQuery, hplain, harg]
  simp [Place.isInterpolated, hy]

theorem namesQuery_of_mentions {name word : String} (hword : word ∈ queryWords) (h : Text.Mentions name word) :
    namesQuery name := by
  have hwords : queryWords.all (·.toList.all (·.toNat < 128)) = true := by decide
  have hascii : ∀ c ∈ word.toList, c.toNat < 128 := by
    simpa only [List.all_eq_true, decide_eq_true_eq] using List.all_eq_true.1 hwords word hword
  exact List.any_eq_true.2 ⟨word, hword, h.contains_lowered hascii⟩

structure QueryOf (p : Parsed) (x : Place) (es : List Place) : Prop where
  mem : x ∈ p.top.walk
  call : x.kind = "call_expression"
  named : ∃ word ∈ queryWords, Text.Mentions (calleeName p (x.child? "function")) word
  chain : ∃ y, x.firstArgument? = some y ∧ Chain es y

/-- The call is at risk if the sum is of a literal and a name, or if it is longer and ends in a literal. -/
theorem QueryOf.risk_iff (h : QueryOf p x es) :
    x ∈ p.top.walk.filter (sqlRisk p) ↔ if es.length = 2 then Mixed es else EndsInLiteral es := by
  obtain ⟨word, hword, hname⟩ := h.named
  obtain ⟨y, hy, hchain⟩ := h.chain
  rw [List.mem_filter, sqlRisk, h.call, namesQuery_of_mentions hword hname, buildsQuery_of_first hy hchain.kind,
    ← hchain.isConcatenation_iff]
  simp [h.mem]

/-- The findings on queries are those of the calls at risk. A call of a query with a sum of literals and names is one of
these if the sum is of a literal and a name, or if it is longer and ends in a literal. So the sum is judged as a whole
if it has two operands, if all of them are names, or if it ends in a literal and not all of them are literals. -/
theorem security_chain (h : QueryOf p x es) :
    (security p).filter (·.rule == some "sql-injection-risk") =
      (p.top.walk.filter (sqlRisk p)).map (p.reportLine · sqlNotice) ∧
    (x ∈ p.top.walk.filter (sqlRisk p) ↔ if es.length = 2 then Mixed es else EndsInLiteral es) ∧
    ((x ∈ p.top.walk.filter (sqlRisk p) ↔ Mixed es) ↔
      es.length = 2 ∨ (∀ e ∈ es, e.kind = "identifier") ∨ Mixed es ∧ EndsInLiteral es) := by
  obtain ⟨y, -, hchain⟩ := h.chain
  exact ⟨filter_security p, h.risk_iff, by rw [h.risk_iff, hchain.agrees_iff]⟩

def sumOfThree (first second third : String) : Node :=
  let operand (kind field : String) (start : Nat) : Node := ⟨kind, true, some field, start, start + 3, []⟩
  let plus (start : Nat) : Node := ⟨"+", false, some "operator", start, start + 1, []⟩
  let inner : Node := ⟨"binary_expression", true, some "left", 6, 15,
    [operand first "left" 6, plus 10, operand second "right" 12]⟩
  let outer : Node := ⟨"binary_expression", true, none, 6, 21, [inner, plus 16, operand third "right" 18]⟩
  let parenthesis (text : String) (start : Nat) : Node := ⟨text, false, none, start, start + 1, []⟩
  ⟨"program", true, none, 0, 22, [⟨"expression_statement", true, none, 0, 22, [⟨"call_expression", true, none, 0, 22, [
    ⟨"identifier", true, some "function", 0, 5, []⟩,
    ⟨"arguments", true, some "arguments", 5, 22, [parenthesis "(" 5, outer, parenthesis ")" 21]⟩]⟩]⟩]⟩

def operandsOfThree (p : Parsed) : List Place :=
  [[0, 0, 1, 1, 0, 0], [0, 0, 1, 1, 0, 2], [0, 0, 1, 1, 2]].filterMap p.top.descend?

theorem queryOf_sumOfThree {first second third text : String} (hfirst : first = "string" ∨ first = "identifier")
    (hsecond : second = "string" ∨ second = "identifier") (hthird : third = "string" ∨ third = "identifier")
    (hname : (Parsed.of "a.js" text (sumOfThree first second third)).between 0 5 = "query".toList) :
    let p := Parsed.of "a.js" text (sumOfThree first second third)
    ∃ x, QueryOf p x (operandsOfThree p) := by
  refine ⟨_, {
    mem := List.mem_of_getElem? (i := 2) rfl
    call := rfl
    named := ⟨"query", by decide, "query".toList, ?_, by decide⟩
    chain := ⟨_, rfl, .snoc (.pair (by exact hfirst) (by exact hsecond) ⟨rfl, rfl, rfl, rfl⟩) (by exact hthird)
      ⟨rfl, rfl, rfl, rfl⟩⟩ }⟩
  change "query".toList <:+: (String.ofList ((Parsed.of _ _ _).between 0 5)).toList
  rw [hname, String.toList_ofList]
  exact List.infix_rfl

/-- `query(abc + xyz + "s")` -/
theorem security_chain_reported :
    let p := Parsed.of "a.js" "query(abc + xyz + \"s\")" (sumOfThree "identifier" "identifier" "string")
    ∃ x, QueryOf p x (operandsOfThree p) ∧ Mixed (operandsOfThree p) ∧ p.reportLine x sqlNotice ∈ security p := by
  intro p
  obtain ⟨x, h⟩ : ∃ x, QueryOf p x (operandsOfThree p) :=
    queryOf_sumOfThree (.inr rfl) (.inr rfl) (.inl rfl) (by decide +kernel)
  have hends : EndsInLiteral (operandsOfThree p) := ⟨_, rfl, rfl⟩
  have hlong : (operandsOfThree p).length ≠ 2 := by decide
  obtain ⟨-, hrisk, -⟩ := security_chain h
  rw [if_neg hlong] at hrisk
  exact ⟨x, h, ⟨⟨_, List.mem_of_getElem? (i := 2) rfl, rfl⟩, _, List.mem_of_getElem? (i := 0) rfl, rfl⟩,
    reportLine_mem_security (hrisk.2 hends)⟩

/-- Nothing is reported of `query("s" + abc + xyz)`, but `query("s" + "t" + "u")` is reported. -/
theorem security_misjudges :
    (¬∀ p x es, QueryOf p x es → Mixed es → p.reportLine x sqlNotice ∈ security p) ∧
      ¬∀ p x es, QueryOf p x es → p.reportLine x sqlNotice ∈ security p → Mixed es := by
  constructor
  · intro hall
    let p := Parsed.of "a.js" "query(\"s\" + abc + xyz)" (sumOfThree "string" "identifier" "identifier")
    obtain ⟨x, h⟩ : ∃ x, QueryOf p x (operandsOfThree p) :=
      queryOf_sumOfThree (.inl rfl) (.inr rfl) (.inr rfl) (by decide +kernel)
    have hnothing : (security p).isEmpty := by decide +kernel
    have hmem := hall p x _ h
      ⟨⟨_, List.mem_of_getElem? (i := 0) rfl, rfl⟩, _, List.mem_of_getElem? (i := 1) rfl, rfl⟩
    rw [List.isEmpty_iff.1 hnothing] at hmem
    cases hmem
  · intro hall
    let p := Parsed.of "a.js" "query(\"s\" + \"t\" + \"u\")" (sumOfThree "string" "string" "string")
    obtain ⟨x, h⟩ : ∃ x, QueryOf p x (operandsOfThree p) :=
      queryOf_sumOfThree (.inl rfl) (.inl rfl) (.inl rfl) (by decide +kernel)
    have hlong : (operandsOfThree p).length ≠ 2 := by decide
    have hrisk := h.risk_iff
    rw [if_neg hlong] at hrisk
    obtain ⟨-, e, he, hname⟩ := hall p x _ h (reportLine_mem_security (hrisk.2 ⟨_, rfl, rfl⟩))
    exact absurd hname ((by decide : ∀ e ∈ operandsOfThree p, e.kind ≠ "identifier") e he)

end CodeAudit.Rule
