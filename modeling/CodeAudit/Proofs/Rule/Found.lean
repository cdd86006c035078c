import CodeAudit.Proofs.Rule.Firsts
import CodeAudit.Rule.Catalogue

set_option autoImplicit false

namespace CodeAudit

def Code.isMeasured : Code → Bool
  | .deepNesting | .complexFunction | .complexFile | .longFunction | .largeClass | .magicNumber
  | .warningComment => true
  | _ => false

def Notice.Plain (n : Notice) : Prop := n.code.isMeasured = false ∧ n.metadata = [] ∧ n.grave = false

namespace Rule

/-- What there is to report of the places of a tree and of the lines of its text. -/
inductive Found (p : Parsed) : Finding → Prop
  | plain {x : Place} {n : Notice} (hx : x ∈ p.top.walk) (h : n.Plain) : Found p (p.report x n)
  | plainLine {x : Place} {n : Notice} (hx : x ∈ p.top.walk) (h : n.Plain) : Found p (p.reportLine x n)
  | plainStart {x : Place} {n : Notice} (hx : x ∈ p.top.walk) (h : n.Plain) : Found p (p.reportStart x n)
  | deepNesting {x : Place} (hx : x ∈ p.top.walk) (h : isTooDeep x) :
      Found p (p.report x (deepNesting.notice (depthOf x)))
  | complexFunction {x : Place} (hx : x ∈ p.top.walk) (hf : x.isFunction) (h : maxComplexity < functionComplexity x) :
      Found p (p.reportStart x (complexFunctionNotice (p.functionName x) (functionComplexity x)))
  | longFunction {x : Place} (hx : x ∈ p.top.walk) (hf : x.isFunction) (h : maxFunctionLines < lineSpan p x) :
      Found p (p.report x (longFunctionNotice (p.functionName x) (lineSpan p x)))
  | largeClass {x : Place} (hx : x ∈ p.top.walk) (hc : isClass x)
      (h : maxClassLines < lineSpan p x ∨ maxClassMembers < memberCount x) :
      Found p (p.report x (largeClassNotice (className p x) (lineSpan p x) (memberCount x)))
  | magicNumber {x : Place} (hx : x ∈ p.top.walk) (v : Binary64) : Found p (p.reportLine x (magicNotice v))
  | marker {i : Nat} (hi : i < Text.lineCount p.text.toList) (m line : String) (snippet : Option String) :
      Found p ((markerNotice m line).toFinding p.path (.single (i + 1) (Nat.le_add_left 1 i)) snippet)

variable {p : Parsed} {x : Place} {f : Finding}

attribute [local grind .] Found.plain Found.plainLine Found.plainStart

theorem flatMap_if {α β : Type} (b : α → Bool) (g : α → β) (xs : List α) :
    (xs.flatMap fun x => if b x then [g x] else []) = (xs.filter b).map g := by
  induction xs with
  | nil => rfl
  | cons x xs ih =>
    rw [List.flatMap_cons, ih, List.filter_cons]
    split <;> rfl

theorem found_walk {g : Place → Option Finding} (hg : ∀ x ∈ p.top.walk, ∀ f, g x = some f → Found p f)
    (h : f ∈ p.top.walk.filterMap g) : Found p f := by
  obtain ⟨x, hx, hf⟩ := List.mem_filterMap.1 h
  exact hg x hx f hf

theorem found_emptyCatch (h : f ∈ emptyCatch p) : Found p f := by
  have hplain : emptyCatch.notice.Plain := ⟨rfl, rfl, rfl⟩
  exact found_walk (by grind) h

theorem found_unusedVariables (h : f ∈ unusedVariables p) : Found p f := by
  have hplain (name : String) : (unusedVariables.notice name).Plain := ⟨rfl, rfl, rfl⟩
  exact found_walk (by grind) h

theorem found_varKeyword (h : f ∈ varKeyword p) : Found p f := by
  obtain ⟨x, hx, rfl⟩ := List.mem_map.1 h
  exact .plain (List.mem_filter.1 hx).1 ⟨rfl, rfl, rfl⟩

theorem found_nestedTernary (h : f ∈ nestedTernary p) : Found p f := by
  obtain ⟨x, hx, rfl⟩ := List.mem_map.1 h
  exact .plain (List.mem_filter.1 hx).1 ⟨rfl, rfl, rfl⟩

theorem found_deepNesting (h : f ∈ deepNesting p) : Found p f := by
  obtain ⟨x, hx, rfl⟩ := List.mem_map.1 h
  obtain ⟨hwalk, hdeep⟩ := List.mem_filter.1 (mem_of_mem_firsts hx)
  exact .deepNesting hwalk hdeep

theorem found_looseEquality (h : f ∈ looseEquality p) : Found p f := by
  have hplain (op strict : String) : (looseEquality.notice op strict).Plain := ⟨rfl, rfl, rfl⟩
  exact found_walk (by grind) h

theorem found_complexFunctions (h : f ∈ complexFunctions p) : Found p f := by
  refine found_walk (fun x hx f hf => ?_) h
  split at hf
  · rename_i hcomplex
    cases hf
    obtain ⟨hfunction, hlt⟩ := Bool.and_eq_true_iff.1 hcomplex
    exact .complexFunction hx hfunction (of_decide_eq_true hlt)
  · cases hf

theorem found_functionSize (h : f ∈ functionSize p) : Found p f := by
  refine found_walk (fun x hx f hf => ?_) h
  split at hf
  · rename_i hlong
    cases hf
    obtain ⟨hfunction, hlt⟩ := Bool.and_eq_true_iff.1 hlong
    exact .longFunction hx hfunction (of_decide_eq_true hlt)
  · cases hf

theorem found_classSize (h : f ∈ classSize p) : Found p f := by
  refine found_walk (fun x hx f hf => ?_) h
  split at hf
  · rename_i hlarge
    cases hf
    obtain ⟨hclass, hlt⟩ := Bool.and_eq_true_iff.1 hlarge
    exact .largeClass hx hclass (by simpa using hlt)
  · cases hf

theorem mapM_ok {α β : Type} {g : α → Except Failure β} {xs : List α} {ys : List β}
    (h : xs.mapM g = .ok ys) {y : β} (hy : y ∈ ys) : ∃ x ∈ xs, g x = .ok y := by
  induction xs generalizing ys with
  | nil =>
    cases h
    cases hy
  | cons x xs ih =>
    rw [List.mapM_cons] at h
    cases hx : g x with
    | error e =>
      rw [hx] at h
      cases h
    | ok z =>
      cases hxs : xs.mapM g with
      | error e =>
        rw [hx, hxs] at h
        cases h
      | ok zs =>
        rw [hx, hxs] at h
        cases h
        cases List.mem_cons.1 hy with
        | inl hy =>
          rw [hy]
          exact ⟨x, List.mem_cons_self, hx⟩
        | inr hy =>
          obtain ⟨x', hx', hy⟩ := ih hxs hy
          exact ⟨x', List.mem_cons_of_mem x hx', hy⟩

theorem found_magicNumbers {fs : List Finding} (hfs : magicNumbers p = .ok fs) (h : f ∈ fs) : Found p f := by
  unfold magicNumbers at hfs
  cases hall : (p.top.walk.filter (·.kind == "number")).mapM (magicNumberAt p) with
  | error e =>
    rw [hall] at hfs
    cases hfs
  | ok ys =>
    rw [hall] at hfs
    cases hfs
    obtain ⟨gs, hgs, h⟩ := List.mem_flatten.1 h
    obtain ⟨x, hx, hgs⟩ := mapM_ok hall hgs
    have hnumber (v : Binary64) : Found p (p.reportLine x (magicNotice v)) := .magicNumber (List.mem_filter.1 hx).1 v
    unfold magicNumberAt at hgs
    grind

theorem found_naming (h : f ∈ naming p) : Found p f := by
  have hvariable {name : String} {keyword : Option String} {n : Notice}
      (hn : variableNotice? name keyword = some n) : n.Plain := by
    unfold variableNotice? at hn
    split at hn
    · cases hn
    · split at hn
      · cases hn
      · cases hn
        exact ⟨rfl, rfl, rfl⟩
    · split at hn
      · cases hn
        exact ⟨rfl, rfl, rfl⟩
      · cases hn
  have hfunction (name : String) : (functionNotice name).Plain := ⟨rfl, rfl, rfl⟩
  have hclass (name : String) : (classNotice name).Plain := ⟨rfl, rfl, rfl⟩
  refine found_walk (fun x hx f hf => ?_) h
  obtain ⟨n, hn, rfl⟩ := Option.map_eq_some_iff.1 hf
  refine .plain hx ?_
  unfold namingNotice? at hn
  split at hn
  · obtain ⟨y, -, hy⟩ := Option.bind_eq_some_iff.1 hn
    exact hvariable hy
  · grind

theorem found_debugCode (h : f ∈ debugCode p) : Found p f := by
  have hconsole (method : String) : (consoleNotice method).Plain := ⟨rfl, rfl, rfl⟩
  have hdebugger : debuggerNotice.Plain := ⟨rfl, rfl, rfl⟩
  exact found_walk (by grind) h

theorem found_callFindings (hx : x ∈ p.top.walk) (h : f ∈ callFindings p x) : Found p f := by
  have heval : evalNotice.Plain := ⟨rfl, rfl, rfl⟩
  have hconstructor : functionConstructorNotice.Plain := ⟨rfl, rfl, rfl⟩
  have himplied (name : String) : (impliedEvalNotice name).Plain := ⟨rfl, rfl, rfl⟩
  have hwrite (method : String) : (documentWriteNotice method).Plain := ⟨rfl, rfl, rfl⟩
  have hquery : sqlNotice.Plain := ⟨rfl, rfl, rfl⟩
  have hcode {name : String} (h : f ∈ codeFromText p x name) : Found p f := by grind [codeFromText]
  have hwrites {callee : Option Place} (h : f ∈ documentWrites p x callee) : Found p f := by
    grind [documentWrites]
  have hsql {callee : Option Place} (h : f ∈ sqlCalls p x callee) : Found p f := by grind [sqlCalls]
  unfold callFindings at h
  dsimp only at h
  grind

theorem found_securityAt (hx : x ∈ p.top.walk) (h : f ∈ securityAt p x) : Found p f := by
  have hinner (property : String) : (markupNotice .innerHtml property).Plain := ⟨rfl, rfl, rfl⟩
  have houter (property : String) : (markupNotice .outerHtml property).Plain := ⟨rfl, rfl, rfl⟩
  have hunverified : unverifiedNotice.Plain := ⟨rfl, rfl, rfl⟩
  have hsecret (name : String) : (secretNotice name).Plain := ⟨rfl, rfl, rfl⟩
  have hurl : urlNotice.Plain := ⟨rfl, rfl, rfl⟩
  have hassignment (h : f ∈ assignmentFindings p x) : Found p f := by
    unfold assignmentFindings at h
    split at h
    · cases h
    · cases List.mem_append.1 h <;> grind
  have hpair (h : f ∈ pairFindings p x) : Found p f := by grind [pairFindings]
  have hsecrets (h : f ∈ secretFindings p x) : Found p f := by grind [secretFindings]
  have hurls (h : f ∈ urlFindings p x) : Found p f := by grind [urlFindings]
  have hcall := found_callFindings (f := f) hx
  unfold securityAt at h
  grind

theorem found_security (h : f ∈ security p) : Found p f := by
  obtain ⟨x, hx, h⟩ := List.mem_flatMap.1 h
  exact found_securityAt hx h

theorem found_performance (h : f ∈ performance p) : Found p f := by
  have hsearch (method : String) : (searchNotice method).Plain := ⟨rfl, rfl, rfl⟩
  have hblocking (method : String) : (blockingNotice method).Plain := ⟨rfl, rfl, rfl⟩
  obtain ⟨⟨x, n⟩, hx, rfl⟩ := List.mem_map.1 h
  obtain ⟨y, hwalk, hy⟩ := List.mem_filterMap.1 (mem_of_mem_firsts hx)
  have hslow : x ∈ p.top.walk ∧ n.Plain := by
    unfold slowCall? at hy
    grind
  exact .plainLine hslow.1 hslow.2

theorem found_errorHandling (h : f ∈ errorHandling p) : Found p f := by
  have hasync (name : String) : (asyncNotice name).Plain := ⟨rfl, rfl, rfl⟩
  have hpromise : promiseNotice.Plain := ⟨rfl, rfl, rfl⟩
  exact found_walk (by grind) h

theorem found_warningComments (h : f ∈ warningComments p.path p.text) : Found p f := by
  obtain ⟨⟨line, i⟩, hline, h⟩ := List.mem_filterMap.1 h
  obtain ⟨m, -, rfl⟩ := Option.map_eq_some_iff.1 h
  exact .marker (List.snd_lt_of_mem_zipIdx hline) _ _ _

theorem found_run {r : Rule} (hr : r ∈ all) {fs : List Finding} (hfs : r.run p = .ok fs) (h : f ∈ fs) :
    Found p f ∨ r.name = "check_complexity" ∧ f ∈ complexFile p := by
  have hsure {name : String} {g : Parsed → List Finding} (hrun : (sure name g).run p = .ok fs)
      (hg : f ∈ g p → Found p f) : Found p f := by
    cases hrun
    exact hg h
  simp only [all, List.mem_cons, List.not_mem_nil, or_false] at hr
  rcases hr with rfl | rfl | rfl | rfl | rfl | rfl | rfl | rfl | rfl | rfl | rfl | rfl | rfl | rfl | rfl | rfl
  · exact .inl (hsure hfs found_emptyCatch)
  · exact .inl (hsure hfs found_unusedVariables)
  · exact .inl (hsure hfs found_varKeyword)
  · exact .inl (hsure hfs found_nestedTernary)
  · exact .inl (hsure hfs found_deepNesting)
  · exact .inl (hsure hfs found_looseEquality)
  · cases hfs
    exact (List.mem_append.1 h).imp found_complexFunctions fun h => ⟨rfl, h⟩
  · exact .inl (hsure hfs found_functionSize)
  · exact .inl (hsure hfs found_classSize)
  · exact .inl (found_magicNumbers hfs h)
  · exact .inl (hsure hfs found_naming)
  · exact .inl (hsure hfs found_debugCode)
  · exact .inl (hsure hfs found_security)
  · exact .inl (hsure hfs found_performance)
  · exact .inl (hsure hfs found_errorHandling)
  · cases hfs
    exact .inl (found_warningComments h)

end Rule

theorem runRules_findings (p : Parsed) :
    (runRules p).1 = Rule.all.flatMap fun r => (r.run p).toOption.getD [] := by
  have hfindings (r : Rule) : runRules.findings (r, r.run p) = (r.run p).toOption.getD [] := by
    cases r.run p <;> rfl
  simp only [runRules, outcomes, List.flatMap_map, hfindings]

theorem mem_runRules {p : Parsed} {r : Rule} (hr : r ∈ Rule.all) {fs : List Finding} (hfs : r.run p = .ok fs)
    {f : Finding} (h : f ∈ fs) : f ∈ (runRules p).1 := by
  rw [runRules_findings]
  refine List.mem_flatMap.2 ⟨r, hr, ?_⟩
  rw [hfs]
  exact h

theorem found_runRules {p : Parsed} {f : Finding} (h : f ∈ (runRules p).1) :
    Rule.Found p f ∨ f ∈ Rule.complexFile p := by
  rw [runRules_findings] at h
  obtain ⟨r, hr, h⟩ := List.mem_flatMap.1 h
  cases hrun : r.run p with
  | ok fs =>
    rw [hrun] at h
    exact (Rule.found_run hr hrun h).imp_right And.right
  | error e =>
    rw [hrun] at h
    cases h

end CodeAudit
