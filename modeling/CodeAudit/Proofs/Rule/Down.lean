import CodeAudit.Proofs.Rule.Catalogued
import CodeAudit.Proofs.Tree.Down

/-!
What the rules find in a file pushed down by empty lines: the same, as many lines further down. Only the finding on
the whole file keeps its place.
-/
set_option autoImplicit false

namespace CodeAudit

def LineRange.down (k : Nat) (r : LineRange) : LineRange :=
  ⟨r.start + k, r.stop + k, Nat.le_add_right_of_le r.one_le, Nat.add_le_add_right r.start_le k⟩

def Finding.down (k : Nat) (f : Finding) : Finding := { f with range := f.range.down k }

namespace Parsed
variable (k : Nat) (p : Parsed) (x : Place) (n : Notice)

theorem linesOf_down : (p.down k).linesOf (x.down k) = (p.linesOf x).down k := by
  simp only [linesOf, LineRange.down, startRow_down, stopRow_down, LineRange.mk.injEq]
  omega

@[simp] theorem report_down : (p.down k).report (x.down k) n = (p.report x n).down k := by
  simp only [report, linesOf_down]
  rfl

@[simp] theorem reportLine_down : (p.down k).reportLine (x.down k) n = (p.reportLine x n).down k := by
  simp only [reportLine, linesOf_down, lineOf_down]
  rfl

@[simp] theorem reportStart_down : (p.down k).reportStart (x.down k) n = (p.reportStart x n).down k := by
  have hline : (p.down k).firstLineOf (x.down k) = (p.firstLineOf x).down k := by
    simp only [firstLineOf, LineRange.single, LineRange.down, startRow_down, LineRange.mk.injEq]
    omega
  simp only [reportStart, hline]
  rfl

end Parsed

namespace Rule
variable (k : Nat) (p : Parsed) (x : Place)

theorem filterMap_down {g h : Place → Option Finding} (hgh : ∀ x, h (x.down k) = (g x).map (Finding.down k)) :
    (p.down k).top.walk.filterMap h = (p.top.walk.filterMap g).map (Finding.down k) := by
  rw [Parsed.top_down, Place.walk_down, List.filterMap_map, List.map_filterMap]
  exact List.filterMap_congr fun x _ => hgh x

theorem filter_map_down {q : Place → Bool} {g h : Place → Finding} (hq : ∀ x, q (x.down k) = q x)
    (hgh : ∀ x, h (x.down k) = (g x).down k) :
    ((p.down k).top.walk.filter q).map h = ((p.top.walk.filter q).map g).map (Finding.down k) := by
  have hfilter : q ∘ Place.down k = q := funext hq
  simp [List.filter_map, hfilter, Function.comp_def, hgh]

theorem emptyCatch_down : emptyCatch (p.down k) = (emptyCatch p).map (Finding.down k) := by
  refine filterMap_down k p fun x => ?_
  simp only [Place.kind_down, Place.child?_down]
  split
  · cases x.child? "body" with
    | none => rfl
    | some body =>
      simp only [Option.map_some, Place.namedChildren_down, List.all_map, Function.comp_def, Place.kind_down,
        Parsed.report_down]
      split <;> rfl
  · rfl

theorem boundName?_down : boundName? (x.down k) = (boundName? x).map (Place.down k) := by
  simp only [boundName?, Place.kind_down, Place.child?_down]
  split
  · cases x.child? "name" with
    | none => rfl
    | some n => by_cases hn : n.kind = "identifier" <;> simp [Option.filter, hn]
  · rfl

theorem isAssigned_down : isAssigned (x.down k) = isAssigned x := by
  simp only [isAssigned, Place.parent?_down]
  cases x.parent? with
  | none => rfl
  | some a =>
    simp only [Option.map_some, Place.kind_down, Place.child?_down]
    cases a.child? "left" <;> simp

theorem namesRead_down : namesRead (p.down k) = namesRead p := by
  have hbound : (p.down k).top.walk.filterMap (fun x => (boundName? x).map (·.route)) =
      p.top.walk.filterMap fun x => (boundName? x).map (·.route) := by
    simp [List.filterMap_map, Function.comp_def, boundName?_down]
  unfold namesRead
  dsimp only
  rw [hbound]
  simp [List.filter_map, Function.comp_def, isAssigned_down]

theorem unusedVariables_down : unusedVariables (p.down k) = (unusedVariables p).map (Finding.down k) := by
  refine filterMap_down k p fun x => ?_
  rw [boundName?_down, namesRead_down]
  cases boundName? x with
  | none => rfl
  | some n =>
    simp only [Option.map_some, Parsed.textOf_down, Parsed.report_down]
    split <;> rfl

theorem varKeyword_down : varKeyword (p.down k) = (varKeyword p).map (Finding.down k) :=
  filter_map_down k p (by simp) (by simp)

theorem nestedTernary_down : nestedTernary (p.down k) = (nestedTernary p).map (Finding.down k) :=
  filter_map_down k p (by simp [isNestedTernary]) (by simp)

theorem addsLevel_down : addsLevel (x.down k) = addsLevel x := by simp [addsLevel]

theorem depthOf_down : depthOf (x.down k) = depthOf x := by
  simp [depthOf, List.countP_map, Function.comp_def, addsLevel_down]

theorem deepNesting_down : deepNesting (p.down k) = (deepNesting p).map (Finding.down k) := by
  have hdeep : isTooDeep ∘ Place.down k = isTooDeep := by
    funext x
    simp [isTooDeep, depthOf_down]
  -- only the row of a position changes, and no two positions become one
  let move (b : Nat × Nat) : Nat × Nat := (b.1 + k, b.2)
  have hmove (a b : Nat × Nat) (h : move a = move b) : a = b := by
    simpa [move, Prod.ext_iff] using h
  have hkey (x : Place) : deepNesting.position (p.down k) (x.down k) = move (deepNesting.position p x) := by
    simp [deepNesting.position, move]
  unfold deepNesting
  rw [Parsed.top_down, Place.walk_down, List.filter_map, hdeep, firstsBy_map hmove hkey]
  simp [Function.comp_def, depthOf_down]

theorem looseEquality_down : looseEquality (p.down k) = (looseEquality p).map (Finding.down k) := by
  refine filterMap_down k p fun x => ?_
  simp only [Place.kind_down, Place.child?_down, Option.map_map, Function.comp_def, Parsed.report_down]
  split
  · split <;> rfl
  · rfl

theorem isDecision_down : isDecision (x.down k) = isDecision x := by
  simp only [isDecision, Place.kind_down, Place.child?_down]
  cases x.child? "operator" <;> simp

theorem functionComplexity_down : functionComplexity (x.down k) = functionComplexity x := by
  simp [functionComplexity, List.countP_map, Function.comp_def, isDecision_down]

theorem fileComplexity_down : fileComplexity (x.down k) = fileComplexity x := by
  simp [fileComplexity, List.countP_map, Function.comp_def, isDecision_down]

theorem complexFunctions_down : complexFunctions (p.down k) = (complexFunctions p).map (Finding.down k) := by
  refine filterMap_down k p fun x => ?_
  simp only [Place.isFunction_down, functionComplexity_down, Parsed.functionName_down, Parsed.reportStart_down]
  split <;> rfl

theorem complexFile_down : complexFile (p.down k) = complexFile p := by
  simp only [complexFile, Parsed.top_down, fileComplexity_down, Parsed.path_down]

theorem lineSpan_down : lineSpan (p.down k) (x.down k) = lineSpan p x := by
  simp only [lineSpan, Parsed.startRow_down, Parsed.stopRow_down]
  omega

theorem functionSize_down : functionSize (p.down k) = (functionSize p).map (Finding.down k) := by
  refine filterMap_down k p fun x => ?_
  simp only [Place.isFunction_down, lineSpan_down, Parsed.functionName_down, Parsed.report_down]
  split <;> rfl

theorem isClass_down : isClass (x.down k) = isClass x := by simp [isClass]

theorem isMember_down : isMember (x.down k) = isMember x := by simp [isMember]

theorem memberCount_down : memberCount (x.down k) = memberCount x := by
  simp only [memberCount, Place.child?_down]
  cases x.child? "body" <;> simp [List.countP_map, Function.comp_def, isMember_down]

theorem className_down : className (p.down k) (x.down k) = className p x := by
  simp [className, Function.comp_def]

theorem classSize_down : classSize (p.down k) = (classSize p).map (Finding.down k) := by
  refine filterMap_down k p fun x => ?_
  simp only [isClass_down, lineSpan_down, memberCount_down, className_down, Parsed.report_down]
  split <;> rfl

theorem isHeldAs_down (field : String) (kinds : List String) : isHeldAs field kinds (x.down k) = isHeldAs field kinds x := by
  simp only [isHeldAs, Place.parent?_down]
  cases x.parent? with
  | none => rfl
  | some q =>
    simp only [Option.map_some, Place.kind_down, Place.child?_down]
    cases q.child? field <;> simp

theorem isArrayIndex_down : isArrayIndex (x.down k) = isArrayIndex x := isHeldAs_down k x _ _

theorem isDefaultValue_down : isDefaultValue (x.down k) = isDefaultValue x := by
  simp only [isDefaultValue, isHeldAs_down]

theorem isConstant_down : isConstant (x.down k) = isConstant x := by
  simp only [isConstant, Place.ancestors_down, List.find?_map, Function.comp_def, Place.kind_down]
  cases x.ancestors.find? (·.kind == "variable_declarator") <;> simp

theorem magicNumberAt_down :
    magicNumberAt (p.down k) (x.down k) = (magicNumberAt p x).map (List.map (Finding.down k)) := by
  simp only [magicNumberAt, Place.node_down, Node.start_down, Node.stop_down, Parsed.between_down]
  cases Number.literal? (p.between x.node.start x.node.stop) with
  | error e => rfl
  | ok v =>
    cases v with
    | none => rfl
    | some v =>
      simp only [isArrayIndex_down, isDefaultValue_down, isConstant_down, Parsed.reportLine_down]
      split <;> rfl

theorem mapM_move {α β γ δ : Type} {g : α → Except Failure β} {h : γ → Except Failure δ} {lower : α → γ} {move : β → δ}
    (hgh : ∀ x, h (lower x) = (g x).map move) (xs : List α) :
    (xs.map lower).mapM h = (xs.mapM g).map (List.map move) := by
  induction xs with
  | nil => rfl
  | cons x r ih =>
    rw [List.map_cons, List.mapM_cons, List.mapM_cons, hgh, ih]
    cases g x with
    | error e => rfl
    | ok y => cases r.mapM g <;> rfl

theorem magicNumbers_down : magicNumbers (p.down k) = (magicNumbers p).map (List.map (Finding.down k)) := by
  have hnumbers : (p.down k).top.walk.filter (·.kind == "number") =
      (p.top.walk.filter (·.kind == "number")).map (Place.down k) := by
    simp [List.filter_map, Function.comp_def]
  unfold magicNumbers
  rw [hnumbers, mapM_move (magicNumberAt_down k p)]
  cases (p.top.walk.filter (·.kind == "number")).mapM (magicNumberAt p) with
  | error e => rfl
  | ok ys => exact congrArg Except.ok List.map_flatten.symm

theorem namingNotice?_down : namingNotice? (p.down k) (x.down k) = namingNotice? p x := by
  simp only [namingNotice?, Place.kind_down, boundName?_down, Place.child?_down, Parsed.textOf?_down,
    Place.declarationKeyword?_down]
  cases boundName? x <;> simp

theorem naming_down : naming (p.down k) = (naming p).map (Finding.down k) := by
  refine filterMap_down k p fun x => ?_
  rw [namingNotice?_down]
  cases namingNotice? p x <;> simp

theorem debugCode_down : debugCode (p.down k) = (debugCode p).map (Finding.down k) := by
  refine filterMap_down k p fun x => ?_
  simp only [Place.kind_down, Place.child?_down, Parsed.memberParts?_down, Parsed.reportLine_down, Parsed.report_down]
  split
  · cases p.memberParts? (x.child? "function") with
    | none => rfl
    | some parts =>
      dsimp only
      split <;> rfl
  · split <;> rfl

theorem isConcatenation_down (x : Option Place) : isConcatenation (x.map (Place.down k)) = isConcatenation x := by
  cases x with
  | none => rfl
  | some x =>
    simp only [isConcatenation, Option.map_some, Place.kind_down, Place.child?_down, Place.kindIs_down]
    cases x.child? "left" <;> cases x.child? "right" <;> simp

theorem calleeName_down (x : Option Place) : calleeName (p.down k) (x.map (Place.down k)) = calleeName p x := by
  cases x with
  | none => rfl
  | some c =>
    have hparts := Parsed.memberParts?_down k p (some c)
    rw [Option.map_some] at hparts
    simp only [calleeName, Option.map_some, Place.kind_down, Parsed.textOf_down, hparts]

theorem codeFromText_down (name : String) :
    codeFromText (p.down k) (x.down k) name = (codeFromText p x name).map (Finding.down k) := by
  simp only [codeFromText, Place.kind_down, Place.firstArgument?_down, Parsed.reportLine_down]
  split
  · rfl
  · split
    · rfl
    · split
      · cases x.firstArgument? with
        | none => rfl
        | some a =>
          simp only [Option.map_some, Place.kind_down, Parsed.report_down]
          split <;> rfl
      · rfl

theorem documentWrites_down (callee : Option Place) :
    documentWrites (p.down k) (x.down k) (callee.map (Place.down k)) = (documentWrites p x callee).map (Finding.down k) := by
  simp only [documentWrites, Parsed.memberParts?_down, Parsed.report_down]
  cases p.memberParts? callee with
  | none => rfl
  | some parts =>
    dsimp only
    split <;> rfl

theorem buildsQuery_down : buildsQuery (x.down k) = buildsQuery x := by
  simp [buildsQuery, isConcatenation_down]

theorem sqlCalls_down (callee : Option Place) :
    sqlCalls (p.down k) (x.down k) (callee.map (Place.down k)) = (sqlCalls p x callee).map (Finding.down k) := by
  simp only [sqlCalls, calleeName_down, buildsQuery_down, Parsed.reportLine_down]
  split <;> rfl

theorem callFindings_down : callFindings (p.down k) (x.down k) = (callFindings p x).map (Finding.down k) := by
  simp only [callFindings, Place.kind_down, Place.child?_down, documentWrites_down, sqlCalls_down]
  generalize x.child? (if x.kind == "new_expression" then "constructor" else "function") = callee
  cases callee with
  | none =>
    dsimp only [Option.map_none]
    split <;> simp
  | some c =>
    simp only [Option.map_some, Place.kind_down, Parsed.textOf_down, codeFromText_down]
    split
    · split <;> rfl
    · split <;> simp

theorem disablesChecks_down (name : String) (value : Option Place) :
    disablesChecks (p.down k) name (value.map (Place.down k)) = disablesChecks p name value := by
  cases value <;> simp [disablesChecks]

theorem assignmentFindings_down :
    assignmentFindings (p.down k) (x.down k) = (assignmentFindings p x).map (Finding.down k) := by
  simp only [assignmentFindings, Place.child?_down, Parsed.memberParts?_down, disablesChecks_down,
    Parsed.reportLine_down]
  cases p.memberParts? (x.child? "left") with
  | none => rfl
  | some parts =>
    dsimp only
    rw [List.map_append]
    congr 1
    · split
      · rfl
      · split <;> rfl
    · split <;> rfl

theorem pairFindings_down : pairFindings (p.down k) (x.down k) = (pairFindings p x).map (Finding.down k) := by
  simp only [pairFindings, Place.child?_down]
  cases x.child? "key" with
  | none => rfl
  | some key =>
    simp only [Option.map_some, Place.kind_down, Parsed.stringValue_down, Parsed.textOf_down, disablesChecks_down,
      Parsed.reportLine_down]
    generalize (if key.kind == "string" then p.stringValue key else p.textOf key) = name
    split <;> rfl

theorem secretFindings_down : secretFindings (p.down k) (x.down k) = (secretFindings p x).map (Finding.down k) := by
  simp only [secretFindings, Place.child?_down]
  cases x.child? "name" with
  | none => rfl
  | some n =>
    cases x.child? "value" with
    | none => rfl
    | some v =>
      simp only [Option.map_some, Place.kind_down, Parsed.textOf_down, Parsed.stringValue_down, Parsed.report_down]
      split
      · split <;> rfl
      · rfl

theorem urlFindings_down : urlFindings (p.down k) (x.down k) = (urlFindings p x).map (Finding.down k) := by
  simp only [urlFindings, Parsed.stringValue_down, Parsed.report_down]
  split <;> rfl

theorem securityAt_down : securityAt (p.down k) (x.down k) = (securityAt p x).map (Finding.down k) := by
  simp only [securityAt, Place.kind_down, callFindings_down, assignmentFindings_down, pairFindings_down,
    secretFindings_down, urlFindings_down, apply_ite (List.map (Finding.down k)), List.map_nil]

theorem security_down : security (p.down k) = (security p).map (Finding.down k) := by
  simp [security, List.flatMap_map, List.map_flatMap, securityAt_down]

theorem isInLoop_down : isInLoop (x.down k) = isInLoop x := by
  simp [isInLoop, Function.comp_def]

theorem calledMethod?_down : calledMethod? (p.down k) (x.down k) = calledMethod? p x := by
  simp [calledMethod?]

theorem slowCall?_down : slowCall? (p.down k) (x.down k) = (slowCall? p x).map fun s => (s.1.down k, s.2) := by
  simp only [slowCall?, calledMethod?_down, isInLoop_down]
  cases calledMethod? p x with
  | none => rfl
  | some method =>
    dsimp only
    split
    · split <;> rfl
    · split <;> rfl

theorem performance_down : performance (p.down k) = (performance p).map (Finding.down k) := by
  have hcalls : (p.down k).top.walk.filterMap (slowCall? (p.down k)) =
      (p.top.walk.filterMap (slowCall? p)).map fun s => (s.1.down k, s.2) := by
    simp [List.filterMap_map, List.map_filterMap, slowCall?_down]
  let move (b : Nat × Nat × List Nat) : Nat × Nat × List Nat := (b.1 + k, b.2.1 + k, b.2.2)
  have hmove (a b : Nat × Nat × List Nat) (h : move a = move b) : a = b := by
    simpa [move, Prod.ext_iff] using h
  have hkey (s : Place × Notice) : slowKey (s.1.down k, s.2) = move (slowKey s) := by
    simp only [slowKey, Place.node_down, Node.start_down, Node.stop_down, Place.route_down]
    split <;> rfl
  unfold performance
  rw [hcalls, firstsBy_map hmove hkey]
  simp

theorem isCatch_down : chainCatches.isCatch (p.down k) (x.down k) = chainCatches.isCatch p x := by
  simp [chainCatches.isCatch]

theorem chainCatches_down (trail : List (Nat × Node)) :
    chainCatches (p.down k) (trail.map fun s => (s.1, s.2.down k)) = chainCatches p trail := by
  induction trail using chainCatches.induct with
  | case1 => rfl
  | case2 i m =>
    have hcatch := isCatch_down k p ⟨m, []⟩
    simp only [Place.down, List.map_nil] at hcatch
    simp only [List.map_cons, List.map_nil, chainCatches, Node.kind_down, hcatch]
  | case3 i m j c t ih =>
    have hcatch := isCatch_down k p ⟨m, (j, c) :: t⟩
    simp only [Place.down, List.map_cons] at hcatch
    simp only [List.map_cons, chainCatches, Node.kind_down, hcatch, ih]

theorem hasTry_down : hasTry (x.down k) = hasTry x := by
  simp [hasTry, Function.comp_def]

theorem isUncaughtAsync_down : isUncaughtAsync (x.down k) = isUncaughtAsync x := by
  simp only [isUncaughtAsync, Place.isFunction_down, Place.isAsync_down, Place.child?_down]
  cases x.child? "body" <;> simp [hasTry_down]

theorem isUncaughtPromise_down : isUncaughtPromise (p.down k) (x.down k) = isUncaughtPromise p x := by
  have htrail : (x.down k).trail = x.trail.map fun s => (s.1, s.2.down k) := rfl
  simp only [isUncaughtPromise, Place.child?_down, Parsed.memberParts?_down, htrail, chainCatches_down]

theorem errorHandling_down : errorHandling (p.down k) = (errorHandling p).map (Finding.down k) := by
  refine filterMap_down k p fun x => ?_
  simp only [Place.isFunction_down, Place.isAsync_down, Place.kind_down, isUncaughtAsync_down, isUncaughtPromise_down,
    Parsed.functionName_down, Parsed.reportStart_down, Parsed.reportLine_down]
  split
  · split <;> rfl
  · split <;> rfl

theorem markerFinding?_down (path : String) (index : Nat) (line : List Char) :
    markerFinding? path (index + k) line = (markerFinding? path index line).map (Finding.down k) := by
  have hline : LineRange.single (index + k + 1) (by omega) = (LineRange.single (index + 1) (by omega)).down k := by
    simp only [LineRange.single, LineRange.down, LineRange.mk.injEq]
    omega
  simp only [markerFinding?, hline, Option.map_map]
  rfl

theorem markerFindings_down (path : String) (ls : List (List Char)) :
    (ls.zipIdx k).filterMap (fun s => markerFinding? path s.2 s.1) =
      (ls.zipIdx.filterMap fun s => markerFinding? path s.2 s.1).map (Finding.down k) := by
  rw [List.zipIdx_eq_map_add, List.filterMap_map, List.map_filterMap]
  refine List.filterMap_congr fun s _ => ?_
  have hline := markerFinding?_down k path s.2 s.1
  rw [Nat.add_comm] at hline
  exact hline

theorem warningComments_down : warningComments (p.down k).path (p.down k).text =
    (warningComments p.path p.text).map (Finding.down k) := by
  have htext : (p.down k).text.toList = List.replicate k '\n' ++ p.text.toList := String.toList_ofList
  -- no marker stands on the lines in front, so that only the indices behind them change
  have hempty : ((List.replicate k []).zipIdx.filterMap fun s => markerFinding? p.path s.2 s.1) = [] := by
    refine List.filterMap_eq_nil_iff.2 fun s hs => ?_
    rw [List.eq_of_mem_replicate (List.fst_mem_of_mem_zipIdx hs)]
    rfl
  rw [warningComments, warningComments, htext, Text.lines_feeds, List.zipIdx_append, List.filterMap_append,
    Parsed.path_down, hempty, List.nil_append, List.length_replicate, Nat.zero_add]
  exact markerFindings_down k p.path (Text.lines p.text.toList)

end Rule

/-- The finding in the file pushed down, where the one on the whole file stays on the first line. -/
def Finding.pushed (k : Nat) (f : Finding) : Finding :=
  if f.rule = some Code.complexFile.name then f else f.down k

namespace Rule
variable (k : Nat) {p : Parsed} {fs : List Finding}

theorem map_pushed_found (h : ∀ f ∈ fs, Found p f) : fs.map (Finding.pushed k) = fs.map (Finding.down k) :=
  List.map_congr_left fun f hf => if_neg (h f hf).rule_ne_complexFile

theorem map_pushed_complexFile : (complexFile p).map (Finding.pushed k) = complexFile p :=
  (List.map_congr_left fun _ hf => if_pos (complexFile_coded hf).rule).trans (List.map_id _)

theorem sure_down (name : String) {g : Parsed → List Finding} (hg : ∀ p, g (p.down k) = (g p).map (Finding.down k)) :
    (sure name g).run (p.down k) = ((sure name g).run p).map (List.map (Finding.down k)) := congrArg Except.ok (hg p)

theorem run_down_of_name {r : Rule} (hr : r ∈ all) (hname : r.name ≠ "check_complexity") :
    r.run (p.down k) = (r.run p).map (List.map (Finding.down k)) := by
  simp only [all, List.mem_cons, List.not_mem_nil, or_false] at hr
  rcases hr with rfl | rfl | rfl | rfl | rfl | rfl | rfl | rfl | rfl | rfl | rfl | rfl | rfl | rfl | rfl | rfl
  · exact sure_down k _ (emptyCatch_down k)
  · exact sure_down k _ (unusedVariables_down k)
  · exact sure_down k _ (varKeyword_down k)
  · exact sure_down k _ (nestedTernary_down k)
  · exact sure_down k _ (deepNesting_down k)
  · exact sure_down k _ (looseEquality_down k)
  · exact absurd rfl hname
  · exact sure_down k _ (functionSize_down k)
  · exact sure_down k _ (classSize_down k)
  · exact magicNumbers_down k p
  · exact sure_down k _ (naming_down k)
  · exact sure_down k _ (debugCode_down k)
  · exact sure_down k _ (security_down k)
  · exact sure_down k _ (performance_down k)
  · exact sure_down k _ (errorHandling_down k)
  · exact congrArg Except.ok (warningComments_down k p)

theorem complexity_down (p : Parsed) : complexity (p.down k) = (complexity p).map (Finding.pushed k) := by
  rw [complexity, complexity, List.map_append, complexFunctions_down, complexFile_down, map_pushed_complexFile,
    map_pushed_found k fun _ => found_complexFunctions]

theorem run_pushed {r : Rule} (hr : r ∈ all) (p : Parsed) :
    r.run (p.down k) = (r.run p).map (List.map (Finding.pushed k)) := by
  by_cases hname : r.name = "check_complexity"
  · rw [run_complexity r hr hname, run_complexity r hr hname, complexity_down]
    rfl
  · rw [run_down_of_name k hr hname]
    cases hrun : r.run p with
    | error e => rfl
    | ok fs =>
      have hfound : ∀ f ∈ fs, Found p f := fun f hf => (found_run hr hrun hf).resolve_right fun h => hname h.1
      exact congrArg Except.ok (map_pushed_found k hfound).symm

/-- A file pushed down by empty lines: a rule fails on it exactly where it failed before, with the same message, and
otherwise finds the same things in the same order, on lines further down. -/
theorem run_of_lines_before {r : Rule} (hr : r ∈ all) (path text : String) (root : Node) (k : Nat) :
    r.run (.of path (String.ofList (List.replicate k '\n') ++ text) (root.down k)) =
        (r.run (.of path text root)).map (List.map (Finding.pushed k)) ∧
      ∀ fs, r.run (.of path text root) = .ok fs → ∀ f ∈ fs, f.rule = some "file-complexity" →
        f.range.start = 1 ∧ f.range.stop = 1 := by
  have hdown : (Parsed.of path text root).down k =
      .of path (String.ofList (List.replicate k '\n') ++ text) (root.down k) := by
    change Parsed.of path (String.ofList (List.replicate k '\n' ++ text.toList)) (root.down k) = _
    rw [String.ofList_append, String.ofList_toList]
  constructor
  · rw [← hdown]
    exact run_pushed k hr (.of path text root)
  · intro fs hfs f hf hrule
    cases found_run hr hfs hf with
    | inl hfound => exact absurd hrule hfound.rule_ne_complexFile
    | inr hwhole =>
      obtain ⟨hstart, hstop, -⟩ := (complexFile_coded hwhole.2).measures
      exact ⟨hstart, hstop⟩

/-- A statement on the first line is found on the third one with two empty lines before it. -/
theorem run_of_lines_before_debugger :
    let root : Node := ⟨"debugger_statement", true, none, 0, 9, []⟩
    ∃ f : Finding, f.rule = some "no-debugger" ∧ f.range = .single 1 (by decide) ∧
      debugCode (.of "a.js" "debugger;" root) = [f] ∧
      debugCode (.of "a.js" "\n\ndebugger;" (root.down 2)) = [{ f with range := .single 3 (by decide) }] := by
  intro root
  have hrule : sure "check_debug_code" debugCode ∈ all := by simp [all]
  obtain ⟨hrun, -⟩ := run_of_lines_before hrule "a.js" "debugger;" root 2
  have hlines : (Parsed.of "a.js" "debugger;" root).linesOf (Parsed.of "a.js" "debugger;" root).top =
      .single 1 (by decide) := by
    decide +kernel
  have hfirst : debugCode (.of "a.js" "debugger;" root) =
      [debuggerNotice.toFinding "a.js" (.single 1 (by decide)) none] := by
    rw [← hlines]
    rfl
  have hthird := Except.ok.inj hrun
  change debugCode _ = (debugCode _).map _ at hthird
  rw [hfirst] at hthird
  exact ⟨_, rfl, rfl, hfirst, hthird⟩

end Rule
end CodeAudit
