import CodeAudit.Proofs.Rule.Found
import Mathlib.Data.List.Basic

set_option autoImplicit false

namespace CodeAudit

/-- What is promised of the findings under one name. -/
structure CatalogueRow where
  rule : String
  category : Category
  severities : List Severity
  deriving DecidableEq, Repr

def catalogue : List CatalogueRow := [
  ⟨"no-empty-catch", .codeQuality, [.medium]⟩,
  ⟨"no-unused-vars", .codeQuality, [.low]⟩,
  ⟨"no-var", .codeQuality, [.low]⟩,
  ⟨"no-nested-ternary", .codeQuality, [.medium]⟩,
  ⟨"max-depth", .maintainability, [.medium]⟩,
  ⟨"eqeqeq", .codeQuality, [.low]⟩,
  ⟨"cyclomatic-complexity", .maintainability, [.medium, .high]⟩,
  ⟨"file-complexity", .maintainability, [.medium]⟩,
  ⟨"function-size", .maintainability, [.medium, .high]⟩,
  ⟨"class-size", .architecture, [.medium, .high]⟩,
  ⟨"no-magic-numbers", .maintainability, [.low]⟩,
  ⟨"naming-convention", .readability, [.low]⟩,
  ⟨"no-console", .codeQuality, [.low]⟩,
  ⟨"no-debugger", .codeQuality, [.medium]⟩,
  ⟨"no-eval", .security, [.high]⟩,
  ⟨"no-new-function", .security, [.high]⟩,
  ⟨"no-implied-eval", .security, [.medium]⟩,
  ⟨"no-inner-html", .security, [.high]⟩,
  ⟨"no-outer-html", .security, [.high]⟩,
  ⟨"no-document-write", .security, [.medium]⟩,
  ⟨"no-hardcoded-secrets", .security, [.high]⟩,
  ⟨"sql-injection-risk", .security, [.medium]⟩,
  ⟨"ssl-verification-disabled", .security, [.high]⟩,
  ⟨"prefer-https", .security, [.low]⟩,
  ⟨"no-nested-array-methods", .performance, [.medium]⟩,
  ⟨"no-sync-fs", .performance, [.low]⟩,
  ⟨"async-error-handling", .codeQuality, [.medium]⟩,
  ⟨"promise-error-handling", .codeQuality, [.low]⟩,
  ⟨"no-warning-comments", .maintainability, [.low]⟩]

example : (catalogue.map (·.rule)).Nodup := by decide +kernel

namespace Code

/-- The severities that a finding with this code can have. -/
def degrees : Code → List Severity
  | .complexFunction | .longFunction | .largeClass => [.medium, .high]
  | c => [c.severity]

theorem mem_catalogue (c : Code) : ⟨c.name, c.category, c.degrees⟩ ∈ catalogue := by
  cases c <;> decide +kernel

theorem severity_mem_degrees (c : Code) : c.severity ∈ c.degrees := by cases c <;> decide

theorem name_injective {c d : Code} (h : c.name = d.name) : c = d := by
  cases c <;> cases d <;> simp [name] at h ⊢

end Code

/-- What a finding with this code bears of what was measured in the file. -/
def Parsed.Measures (p : Parsed) (f : Finding) : Code → Prop
  | .complexFunction => ∃ x ∈ p.top.walk, x.isFunction ∧ ∃ n : Nat, n = Rule.functionComplexity x ∧
      f.metadata.get? "complexity" = some (.ofNat n) ∧ 10 < n ∧ (f.severity = .high ↔ 20 < n)
  | .longFunction => ∃ x ∈ p.top.walk, x.isFunction ∧ f.range = p.linesOf x ∧ ∃ n : Nat,
      (n : Int) = p.stopRow x - p.startRow x + 1 ∧ f.metadata.get? "functionSize" = some (.ofNat n) ∧ 50 < n ∧
        (f.severity = .high ↔ 100 < n)
  | .largeClass => ∃ (lines : Int) (members : Nat), f.metadata.get? "lines" = some (.int lines) ∧
      f.metadata.get? "members" = some (.ofNat members) ∧ (300 < lines ∨ 20 < members) ∧
        (f.severity = .high ↔ 600 < lines ∨ 40 < members)
  | .deepNesting => ∃ n : Nat, f.metadata.get? "depth" = some (.ofNat n) ∧ 4 < n
  | .complexFile => f.range.start = 1 ∧ f.range.stop = 1 ∧ ∃ n : Nat,
      f.metadata.get? "fileComplexity" = some (.ofNat n) ∧ 50 < n
  | _ => True

namespace Rule
variable {p : Parsed} {f : Finding}

/-- The finding is one of the code, with a category and a severity that go with it and with what it measures. -/
structure Coded (p : Parsed) (f : Finding) (c : Code) : Prop where
  rule : f.rule = some c.name
  category : f.category = c.category
  severity : f.severity ∈ c.degrees
  measures : p.Measures f c

theorem measures_of_unmeasured {c : Code} (h : c.isMeasured = false) (f : Finding) : p.Measures f c := by
  cases c <;> trivial

theorem severity_of_plain {n : Notice} (h : n.Plain) : n.severity ∈ n.code.degrees := by
  rw [Notice.severity, h.2.2]
  exact n.code.severity_mem_degrees

theorem severity_eq_high {n : Notice} (h : n.code.severity = .medium) : n.severity = .high ↔ n.grave = true := by
  unfold Notice.severity
  split <;> simp_all

theorem severity_mem {n : Notice} (h : n.code.degrees = [.medium, .high]) (hcode : n.code.severity = .medium) :
    n.severity ∈ n.code.degrees := by
  rw [h, Notice.severity, hcode]
  split <;> simp

theorem Found.coded (h : Found p f) : ∃ c, Coded p f c := by
  cases h with
  | plain hx h | plainLine hx h | plainStart hx h =>
    exact ⟨_, rfl, rfl, severity_of_plain h, measures_of_unmeasured h.1 _⟩
  | deepNesting hx h =>
    have hdepth := of_decide_eq_true (Bool.and_eq_true_iff.1 h).2
    exact ⟨.deepNesting, rfl, rfl, List.mem_singleton_self _, _, rfl, hdepth⟩
  | @complexFunction x hx hf h =>
    refine ⟨.complexFunction, rfl, rfl, severity_mem rfl rfl, x, hx, hf, _, rfl, rfl, h, ?_⟩
    exact (severity_eq_high rfl).trans decide_eq_true_iff
  | @longFunction x hx hf h =>
    have hpos : 0 ≤ lineSpan p x := Int.le_trans (Int.natCast_nonneg maxFunctionLines) (Int.le_of_lt h)
    obtain ⟨n, hn⟩ := Int.eq_ofNat_of_zero_le hpos
    have hlong : (longFunctionNotice (p.functionName x) (lineSpan p x)).severity = .high ↔ 100 < n := by
      rw [severity_eq_high rfl, hn]
      exact decide_eq_true_iff.trans Int.ofNat_lt
    have hspan : (n : Int) = p.stopRow x - p.startRow x + 1 := hn.symm
    rw [hn] at h
    refine ⟨.longFunction, rfl, rfl, severity_mem rfl rfl, x, hx, hf, rfl, n, hspan, ?_, Int.ofNat_lt.1 h, hlong⟩
    exact congrArg (fun i => some (Json.int i)) hn
  | @largeClass x hx hc h =>
    refine ⟨.largeClass, rfl, rfl, severity_mem rfl rfl, _, _, rfl, rfl, h, ?_⟩
    refine (severity_eq_high rfl).trans ?_
    exact Bool.or_eq_true_iff.trans (or_congr decide_eq_true_iff decide_eq_true_iff)
  | magicNumber hx v => exact ⟨.magicNumber, rfl, rfl, List.mem_singleton_self _, trivial⟩
  | marker hi m line snippet => exact ⟨.warningComment, rfl, rfl, List.mem_singleton_self _, trivial⟩

theorem complexFile_coded (h : f ∈ complexFile p) : Coded p f .complexFile := by
  unfold complexFile at h
  dsimp only at h
  split at h
  · rename_i hcomplex
    rw [List.mem_singleton.1 h]
    exact ⟨rfl, rfl, List.mem_singleton_self _, rfl, rfl, _, rfl, hcomplex⟩
  · cases h

theorem Found.rule_ne_complexFile (h : Found p f) : f.rule ≠ some Code.complexFile.name := by
  intro hrule
  have hname {c : Code} (hc : f.rule = some c.name) : c = .complexFile :=
    Code.name_injective (Option.some.inj (hc.symm.trans hrule))
  cases h with
  | plain hx h | plainLine hx h | plainStart hx h =>
    have hmeasured := h.1
    rw [hname rfl] at hmeasured
    cases hmeasured
  | deepNesting | complexFunction | longFunction | largeClass | magicNumber | marker => cases hname rfl

theorem run_complexity : ∀ r ∈ all, r.name = "check_complexity" → r.run p = .ok (complexity p) := by
  simp [all, sure, run]

theorem filter_found {fs : List Finding} (h : ∀ f ∈ fs, Found p f) :
    fs.filter (·.rule == some Code.complexFile.name) = [] :=
  List.filter_eq_nil_iff.2 fun f hf => by simpa using (h f hf).rule_ne_complexFile

theorem filter_run {r : Rule} (hr : r ∈ all) :
    ((r.run p).toOption.getD []).filter (·.rule == some Code.complexFile.name) =
      if r.name = "check_complexity" then complexFile p else [] := by
  split
  · rename_i hname
    have hwhole : (complexFile p).filter (·.rule == some Code.complexFile.name) = complexFile p :=
      List.filter_eq_self.2 fun f hf => by simp [(complexFile_coded hf).rule]
    rw [run_complexity r hr hname]
    change (complexFunctions p ++ complexFile p).filter _ = _
    rw [List.filter_append, filter_found fun f => found_complexFunctions, hwhole, List.nil_append]
  · rename_i hname
    cases hrun : r.run p with
    | error e => rfl
    | ok fs => exact filter_found fun f hf => (found_run hr hrun hf).resolve_right fun h => hname h.1

end Rule

theorem filter_runRules (p : Parsed) :
    (runRules p).1.filter (·.rule == some Code.complexFile.name) = Rule.complexFile p := by
  rw [runRules_findings, List.filter_flatMap, List.flatMap_congr fun r hr => Rule.filter_run hr]
  simp [Rule.all, Rule.sure]

/-- A finding keeps to the catalogue: its name, category and severity are those of one row, and under the names that
stand for a measure its metadata and its severity are as the row promises. -/
structure Parsed.Conforms (p : Parsed) (f : Finding) : Prop where
  listed : ∃ row ∈ catalogue, f.rule = some row.rule ∧ f.category = row.category ∧ f.severity ∈ row.severities
  complexFunction : f.rule = some "cyclomatic-complexity" → p.Measures f .complexFunction
  longFunction : f.rule = some "function-size" → p.Measures f .longFunction
  largeClass : f.rule = some "class-size" → p.Measures f .largeClass
  deepNesting : f.rule = some "max-depth" → p.Measures f .deepNesting
  complexFile : f.rule = some "file-complexity" → p.Measures f .complexFile

theorem Rule.Coded.conforms {p : Parsed} {f : Finding} {c : Code} (h : Rule.Coded p f c) : p.Conforms f := by
  have hmeasures {d : Code} (hrule : f.rule = some d.name) : p.Measures f d := by
    rw [← Code.name_injective (Option.some.inj (h.rule.symm.trans hrule))]
    exact h.measures
  exact ⟨⟨_, c.mem_catalogue, h.rule, h.category, h.severity⟩, @hmeasures .complexFunction,
    @hmeasures .longFunction, @hmeasures .largeClass, @hmeasures .deepNesting, @hmeasures .complexFile⟩

/-- Whatever the file and its tree, the findings of the rules keep to the catalogue, and at most one of them is on the
file as a whole. -/
theorem runRules_conforms (path text : String) (root : Node) :
    (∀ f ∈ (runRules (.of path text root)).1, (Parsed.of path text root).Conforms f) ∧
      (runRules (.of path text root)).1.countP (·.rule == some "file-complexity") ≤ 1 := by
  constructor
  · intro f hf
    cases found_runRules hf with
    | inl hfound =>
      obtain ⟨c, hc⟩ := hfound.coded
      exact hc.conforms
    | inr hwhole => exact (Rule.complexFile_coded hwhole).conforms
  · rw [List.countP_eq_length_filter]
    change ((runRules _).1.filter (·.rule == some Code.complexFile.name)).length ≤ 1
    rw [filter_runRules, Rule.complexFile]
    split <;> simp

/-- A function on every line of a file of 121 lines. -/
theorem runRules_conforms_of_long :
    let p := Parsed.of "long.js" (String.ofList (List.replicate 120 '\n')) ⟨"function_declaration", true, none, 0, 120, []⟩
    ∃ f ∈ (runRules p).1, f.rule = some "function-size" ∧ f.metadata.get? "functionSize" = some (.ofNat 121) ∧
      f.severity = .high := by
  intro p
  have hbytes : p.bytes = List.replicate 120 10 := by
    rw [p.bytes_eq]
    change Text.Utf8.encode (String.ofList (List.replicate 120 '\n')).toList = _
    rw [String.toList_ofList]
    decide +kernel
  have hspan : Rule.lineSpan p p.top = 121 := by
    change ((p.bytes.take 120).count 10 : Int) - ((p.bytes.take 0).count 10 : Int) + 1 = 121
    rw [hbytes]
    decide +kernel
  have hlong : p.report p.top (Rule.longFunctionNotice (p.functionName p.top) 121) ∈ Rule.functionSize p := by
    refine List.mem_filterMap.2 ⟨p.top, List.mem_cons_self, ?_⟩
    rw [hspan]
    rfl
  have hrule : Rule.sure "check_function_size" Rule.functionSize ∈ Rule.all := by simp [Rule.all]
  have hfound := mem_runRules hrule rfl hlong
  obtain ⟨hconforms, -⟩ := runRules_conforms p.path p.text p.root
  obtain ⟨x, -, -, -, n, -, hsize, -, hhigh⟩ := (hconforms _ hfound).longFunction rfl
  have hn : n = 121 := by
    have hsizes : (121 : Int) = n := Json.int.inj (Option.some.inj hsize)
    omega
  exact ⟨_, hfound, rfl, rfl, hhigh.2 (by omega)⟩

end CodeAudit
