import CodeAudit.Proofs.Rule.Catalogued
import CodeAudit.Proofs.Tree.Placed

/-!
Calls on the results of calls. From the call of `then` the search goes outward, from each call to the one on its result,
until one is of `catch` or the chain ends. What stands further inward is not looked at, so that each `then` needs a
`catch` behind it.
-/
set_option autoImplicit false

namespace CodeAudit.Rule
open Place
variable {p : Parsed} {x y r : Place} {m n : String} {before after cs : List (Place × String)}

def isLoosePromise (p : Parsed) (x : Place) : Bool := x.kind == "call_expression" && isUncaughtPromise p x

structure Calls (p : Parsed) (x r : Place) (method : String) : Prop where
  kind : x.kind = "call_expression"
  callee : ∃ a m, x.child? "function" = some a ∧ a.kind = "member_expression" ∧ a.child? "object" = some r ∧
    a.child? "property" = some m ∧ p.textOf m = method

/-- Calls with their methods, each on the result of the one before it. The last is not an object in its turn. -/
inductive CallChain (p : Parsed) : List (Place × String) → Prop where
  | last {x r : Place} {m : String} (h : Calls p x r m) (hx : kindIs "member_expression" x.parent? = false) :
      CallChain p [(x, m)]
  | cons {x r y : Place} {m n : String} {cs : List (Place × String)} (h : Calls p x r m) (hy : Calls p y x n)
      (hcs : CallChain p ((y, n) :: cs)) : CallChain p ((x, m) :: (y, n) :: cs)

/-- One round of the search from a call outward: the answer, or the call from which to go on. -/
def lookOutward (p : Parsed) (x : Place) : Bool ⊕ Place :=
  match x.parent? with
  | none => .inl false
  | some a =>
    if a.kind != "member_expression" then .inl false
    else if p.textOf? (a.child? "property") == "catch" then .inl true
    else
      match a.parent? with
      | some c => if c.kind == "call_expression" then .inr c else .inl false
      | none => .inl false

/-- The search from a call ends after so many rounds with the answer. -/
inductive Ends (p : Parsed) : Place → Nat → Bool → Prop where
  | here {x : Place} {b : Bool} (h : lookOutward p x = .inl b) : Ends p x 1 b
  | onward {x y : Place} {b : Bool} {k : Nat} (h : lookOutward p x = .inr y) (hy : Ends p y k b) : Ends p x (k + 1) b

theorem chainCatches_ends (p : Parsed) (node : Node) (trail : List (Nat × Node)) :
    ∃ k, 2 * k ≤ trail.length + 2 ∧ Ends p ⟨node, trail⟩ k (chainCatches p trail) := by
  fun_induction chainCatches p trail generalizing node with
  | case1 => exact ⟨1, by simp, .here rfl⟩
  | case2 i a =>
    refine ⟨1, by simp, .here ?_⟩
    have hlook : lookOutward p ⟨node, [(i, a)]⟩ =
        if a.kind != "member_expression" then .inl false
        else if chainCatches.isCatch p ⟨a, []⟩ then .inl true else .inl false := rfl
    rw [hlook, bne]
    cases a.kind == "member_expression" <;> cases chainCatches.isCatch p ⟨a, []⟩ <;> rfl
  | case3 i a j c t ih =>
    have hlook : lookOutward p ⟨node, (i, a) :: (j, c) :: t⟩ =
        if a.kind != "member_expression" then .inl false
        else if chainCatches.isCatch p ⟨a, (j, c) :: t⟩ then .inl true
        else if c.kind == "call_expression" then .inr ⟨c, t⟩ else .inl false := rfl
    obtain ⟨k, hk, hends⟩ := ih c
    rw [bne] at hlook
    cases ha : a.kind == "member_expression" with
    | false => exact ⟨1, by simp, .here (by rw [hlook, ha]; rfl)⟩
    | true =>
      cases hm : chainCatches.isCatch p ⟨a, (j, c) :: t⟩ with
      | true => exact ⟨1, by simp, .here (by rw [hlook, ha, hm]; rfl)⟩
      | false =>
        cases hc : c.kind == "call_expression" with
        | false => exact ⟨1, by simp, .here (by rw [hlook, ha, hm, hc]; rfl)⟩
        | true =>
          refine ⟨k + 1, by simp only [List.length_cons]; omega, .onward (by rw [hlook, ha, hm, hc]; rfl) hends⟩

theorem Ends.unique {k l : Nat} {b d : Bool} (h : Ends p x k b) (h' : Ends p x l d) : k = l ∧ b = d := by
  induction h generalizing l with
  | here h =>
    cases h' with
    | here h' =>
      rw [h] at h'
      exact ⟨rfl, Sum.inl.inj h'⟩
    | onward h' =>
      rw [h] at h'
      cases h'
  | onward h hy ih =>
    cases h' with
    | here h' =>
      rw [h] at h'
      cases h'
    | onward h' hy' =>
      rw [h] at h'
      cases h'
      obtain ⟨rfl, rfl⟩ := ih hy'
      exact ⟨rfl, rfl⟩

theorem Calls.member (h : Calls p y x n) : ∃ a, x.parent? = some a ∧ a.kind = "member_expression" ∧
    a.parent? = some y ∧ p.textOf? (a.child? "property") = n := by
  obtain ⟨a, m, ha, hkind, hobject, hproperty, rfl⟩ := h.callee
  refine ⟨a, parent?_of_mem (mem_of_child? hobject), hkind, parent?_of_mem (mem_of_child? ha), ?_⟩
  rw [hproperty]
  rfl

theorem Calls.memberParts? (h : Calls p x r m) : p.memberParts? (x.child? "function") = some (p.textOf r, m) := by
  obtain ⟨a, q, ha, hkind, hobject, hproperty, rfl⟩ := h.callee
  simp [Parsed.memberParts?, ha, hkind, hobject, hproperty]

theorem Calls.lookOutward (h : Calls p y x n) :
    lookOutward p x = if n == "catch" then .inl true else .inr y := by
  obtain ⟨a, hparent, hkind, hcall, hname⟩ := h.member
  simp [Rule.lookOutward, hparent, hkind, hcall, hname, h.kind]

theorem lookOutward_last (h : kindIs "member_expression" x.parent? = false) : lookOutward p x = .inl false := by
  rw [lookOutward]
  cases hparent : x.parent? with
  | none => rfl
  | some a =>
    rw [hparent] at h
    have hkind : (a.kind != "member_expression") = true := by rw [bne, show (a.kind == _) = false from h]; rfl
    exact if_pos hkind

theorem CallChain.tail {c d : Place × String} (h : CallChain p (c :: d :: cs)) : CallChain p (d :: cs) := by
  cases h with
  | cons _ _ hcs => exact hcs

theorem CallChain.suffix (h : CallChain p (before ++ cs)) (hcs : cs ≠ []) : CallChain p cs := by
  induction before with
  | nil => exact h
  | cons b before ih =>
    obtain ⟨d, ds, hd⟩ := List.exists_cons_of_ne_nil (List.append_ne_nil_of_right_ne_nil before hcs)
    rw [List.cons_append, hd] at h
    rw [hd] at ih
    exact ih h.tail

theorem CallChain.calls (h : CallChain p ((x, m) :: cs)) : ∃ r, Calls p x r m := by
  cases h with
  | last h _ => exact ⟨_, h⟩
  | cons h _ _ => exact ⟨_, h⟩

/-- The search from the first call of a chain takes no more rounds than there are calls, and tells whether one of the
calls behind it is of `catch`. -/
theorem CallChain.ends (h : CallChain p ((x, m) :: cs)) : ∃ k ≤ cs.length + 1, Ends p x k (cs.any (·.2 == "catch")) := by
  induction cs generalizing x m with
  | nil =>
    cases h with
    | last _ hx => exact ⟨1, Nat.le_refl _, .here (lookOutward_last hx)⟩
  | cons c cs ih =>
    obtain ⟨y, n⟩ := c
    cases h with
    | cons _ hy hcs =>
      have hlook := hy.lookOutward
      rw [List.any_cons, List.length_cons]
      cases hn : n == "catch" with
      | true =>
        rw [hn] at hlook
        exact ⟨1, by omega, .here hlook⟩
      | false =>
        rw [hn] at hlook
        obtain ⟨k, hk, hends⟩ := ih hcs
        exact ⟨k + 1, by omega, .onward hlook hends⟩

theorem CallChain.isLoosePromise_iff (h : CallChain p ((x, m) :: cs)) :
    isLoosePromise p x ↔ m = "then" ∧ ∀ c ∈ cs, c.2 ≠ "catch" := by
  obtain ⟨r, hcalls⟩ := h.calls
  obtain ⟨k, -, hends⟩ := h.ends
  obtain ⟨l, -, hcatches⟩ := chainCatches_ends p x.node x.trail
  obtain ⟨-, hanswer⟩ := Ends.unique hcatches hends
  rw [isLoosePromise, isUncaughtPromise, hcalls.kind, hcalls.memberParts?, hanswer]
  simp

theorem filter_errorHandling (p : Parsed) : (errorHandling p).filter (·.rule == some "promise-error-handling") =
    (p.top.walk.filter (isLoosePromise p)).map (p.reportLine · promiseNotice) := by
  have hasync (x : Place) : ((p.reportStart x (asyncNotice (p.functionName x))).rule ==
      some "promise-error-handling") = false := by
    change (some Code.uncaughtAsync.name == some Code.uncaughtPromise.name) = false
    decide
  have hpromise (x : Place) : ((p.reportLine x promiseNotice).rule == some "promise-error-handling") = true := rfl
  rw [errorHandling, List.filter_filterMap, ← List.filterMap_eq_map, List.filterMap_filter]
  congr 1
  funext x
  rw [isLoosePromise]
  split
  · rename_i hfunction
    have hkind : (x.kind == "call_expression") = false := by
      rw [beq_eq_false_iff_ne]
      intro hkind
      rw [isFunction, hkind] at hfunction
      exact absurd (Bool.and_eq_true_iff.1 hfunction).1 (by decide)
    rw [hkind, Bool.false_and, if_neg Bool.false_ne_true]
    split
    · exact Option.filter_some_neg (hasync x)
    · rfl
  · split
    · exact Option.filter_some_pos (hpromise x)
    · rfl

/-- The findings on promises are those of the loose ones. A call in a chain is one of these if it is of `then` and none
of the calls behind it is of `catch`, whatever else stands there and whatever stands in front of it. To tell, the search
takes no more rounds than there are calls from this one on. -/
theorem errorHandling_chain (h : CallChain p (before ++ (x, m) :: after)) (hx : x ∈ p.top.walk) :
    (errorHandling p).filter (·.rule == some "promise-error-handling") =
      (p.top.walk.filter (isLoosePromise p)).map (p.reportLine · promiseNotice) ∧
    (x ∈ p.top.walk.filter (isLoosePromise p) ↔ m = "then" ∧ ∀ c ∈ after, c.2 ≠ "catch") ∧
    ∃ k ≤ after.length + 1, Ends p x k (chainCatches p x.trail) := by
  have hsuffix : CallChain p ((x, m) :: after) := h.suffix (List.cons_ne_nil _ _)
  obtain ⟨k, hk, hends⟩ := hsuffix.ends
  obtain ⟨l, -, hcatches⟩ := chainCatches_ends p x.node x.trail
  obtain ⟨rfl, hanswer⟩ := Ends.unique hcatches hends
  refine ⟨filter_errorHandling p, ?_, l, hk, hcatches⟩
  rw [List.mem_filter, and_iff_right hx]
  exact hsuffix.isLoosePromise_iff

def methodNode (object : Node) (method : String) : Node :=
  let property := object.stop + 1
  let arguments := property + method.length
  ⟨"call_expression", true, some "object", object.start, arguments + 3, [
    ⟨"member_expression", true, some "function", object.start, arguments, [
      object, ⟨".", false, none, object.stop, property, []⟩,
      ⟨"property_identifier", true, some "property", property, arguments, []⟩]⟩,
    ⟨"arguments", true, some "arguments", arguments, arguments + 3, [
      ⟨"(", false, none, arguments, arguments + 1, []⟩, ⟨"identifier", true, none, arguments + 1, arguments + 2, []⟩,
      ⟨")", false, none, arguments + 2, arguments + 3, []⟩]⟩]⟩

def chainFile (text : String) (methods : List String) : Parsed :=
  let whole := methods.foldl methodNode ⟨"identifier", true, some "object", 0, 1, []⟩
  .of "a.js" text ⟨"program", true, none, 0, whole.stop, [⟨"expression_statement", true, none, 0, whole.stop, [whole]⟩]⟩

def firstBelow (p : Parsed) (level : Nat) : Place := (p.top.descend? (List.replicate level 0)).getD p.top

/-- `a.then(b).catch(c).then(d).finally(e)`: the second `then` is reported, and the first is not. -/
theorem errorHandling_chain_resumed :
    let p := chainFile "a.then(b).catch(c).then(d).finally(e)" ["then", "catch", "then", "finally"]
    let first := firstBelow p 8
    let second := firstBelow p 4
    CallChain p [(first, "then"), (firstBelow p 6, "catch"), (second, "then"), (firstBelow p 2, "finally")] ∧
      first ∈ p.top.walk ∧ second ∈ p.top.walk ∧ first ∉ p.top.walk.filter (isLoosePromise p) ∧
      p.reportLine second promiseNotice ∈ errorHandling p := by
  intro p first second
  have hfirst : Calls p first (firstBelow p 10) "then" := ⟨rfl, _, _, rfl, rfl, rfl, rfl, by decide +kernel⟩
  have hcatch : Calls p (firstBelow p 6) first "catch" := ⟨rfl, _, _, rfl, rfl, rfl, rfl, by decide +kernel⟩
  have hsecond : Calls p second (firstBelow p 6) "then" := ⟨rfl, _, _, rfl, rfl, rfl, rfl, by decide +kernel⟩
  have hfinally : Calls p (firstBelow p 2) second "finally" := ⟨rfl, _, _, rfl, rfl, rfl, rfl, by decide +kernel⟩
  have hchain := CallChain.cons hfirst hcatch (.cons hcatch hsecond (.cons hsecond hfinally (.last hfinally rfl)))
  have hwalk₁ : first ∈ p.top.walk := List.mem_of_getElem? (i := 8) rfl
  have hwalk₂ : second ∈ p.top.walk := List.mem_of_getElem? (i := 4) rfl
  have hbefore : CallChain p ([(first, "then"), (firstBelow p 6, "catch")] ++ (second, "then") :: _) := hchain
  obtain ⟨hreports, hloose, -⟩ := errorHandling_chain hbefore hwalk₂
  have hafter : CallChain p ([] ++ (first, "then") :: _) := hchain
  obtain ⟨-, hcaught, -⟩ := errorHandling_chain hafter hwalk₁
  refine ⟨hchain, hwalk₁, hwalk₂, fun h => ?_, ?_⟩
  · exact (hcaught.1 h).2 _ List.mem_cons_self rfl
  · have hmem := List.mem_map_of_mem (f := (p.reportLine · promiseNotice)) (hloose.2 ⟨rfl, by simp⟩)
    rw [← hreports] at hmem
    exact (List.mem_filter.1 hmem).1

end CodeAudit.Rule
