import CodeAudit.Finding.Schema
import CodeAudit.Proofs.Number.Spelled
import CodeAudit.Proofs.Rule.Located
import CodeAudit.Proofs.Tree.Preorder
import CodeAudit.Rule.FileReport

set_option autoImplicit false

namespace CodeAudit

/-- The walk meets a number, written in whole digits of another base, that no double is near to. -/
def Parsed.Overflows (p : Parsed) : Prop :=
  ∃ x ∈ p.top.walk, x.kind = "number" ∧
    ∃ n, Number.WholeLiteral (Number.bare (p.between x.node.start x.node.stop)) n ∧ 2 ^ 1024 - 2 ^ 970 ≤ n

namespace Schema

theorem named_text {α : Type} {ofName? : String → Option α} {s : String} {a : α} (h : ofName? s = some a) :
    named ofName? (.text s) = .ok a := by
  have htext : (LooseText.whole s).text = s := rfl
  simp [named, Json.text, htext, h]

theorem optional_text (o : Option String) : optional text (.ofOption .text o) = .ok o := by
  cases o <;> rfl

theorem positive_ofNat {n : Nat} (h : 1 ≤ n) : positive (.ofNat n) = .ok (n : Int) := by
  have hn : (1 : Int) ≤ n := by omega
  simp [positive, integer, Json.ofNat, hn]

theorem lineRange_toJson (r : LineRange) : lineRange r.toJson = .ok r := by
  have hstop := r.one_le.trans r.start_le
  have hle := r.start_le
  have hof : LineRange.of r.start r.stop = .ok r := dif_pos ⟨by have := r.one_le; omega, by omega⟩
  simp [lineRange, LineRange.toJson, record, required, Fields.get?, under, both, positive_ofNat r.one_le,
    positive_ofNat hstop, hof]

/-- Every finding there can be passes the check that a finding undergoes when it is made. -/
theorem finding_toJson (f : Finding) : finding f.toJson = .ok f := by
  have hcategory : Category.ofName? f.category.name = some f.category := by cases f.category <;> rfl
  have hseverity : Severity.ofName? f.severity.name = some f.severity := by cases f.severity <;> rfl
  have hsource : Source.ofName? f.source.name = some f.source := by cases f.source <;> rfl
  have htext (s : String) : text (.text s) = .ok s := rfl
  simp [finding, Finding.toJson, record, required, defaulted, Fields.get?, under, apply, both, named_text hcategory,
    named_text hseverity, named_text hsource, optional_text, lineRange_toJson, htext]

end Schema

namespace Rule
variable {p : Parsed} {x : Place} {e : Failure}

theorem mapM_error {α β : Type} {g : α → Except Failure β} {e₀ : Failure}
    (hg : ∀ {x e}, g x = .error e → e = e₀) {xs : List α} :
    xs.mapM g = .error e ↔ (∃ x ∈ xs, g x = .error e₀) ∧ e = e₀ := by
  induction xs with
  | nil => simp [pure, Except.pure]
  | cons x xs ih =>
    rw [List.mapM_cons]
    cases hx : g x with
    | error e' =>
      cases hg hx
      simp [bind, Except.bind, hx, eq_comm]
    | ok y =>
      have hcons : (∃ z ∈ x :: xs, g z = .error e₀) ↔ ∃ z ∈ xs, g z = .error e₀ := by simp [hx]
      rw [hcons, ← ih]
      cases xs.mapM g <;> simp [bind, Except.bind, pure, Except.pure]

theorem magicNumberAt_error :
    magicNumberAt p x = .error e ↔ Number.literal? (p.between x.node.start x.node.stop) = .error e := by
  unfold magicNumberAt
  split <;> simp_all

theorem magicNumbers_error : magicNumbers p = .error e ↔ p.Overflows ∧ e = .integerTooLarge := by
  have hsame {x : Place} {e : Failure} (h : magicNumberAt p x = .error e) : e = .integerTooLarge :=
    (Number.literal?_error.1 (magicNumberAt_error.1 h)).2
  have hmap : magicNumbers p = .error e ↔
      (p.top.walk.filter (·.kind == "number")).mapM (magicNumberAt p) = .error e := by
    unfold magicNumbers
    cases (p.top.walk.filter (·.kind == "number")).mapM (magicNumberAt p) <;> simp [Except.map]
  rw [hmap, mapM_error hsame]
  simp only [magicNumberAt_error, Number.literal?_error, List.mem_filter, beq_iff_eq, and_true, and_assoc,
    Parsed.Overflows, Binary64.beyond]

theorem run_sure : ∀ r ∈ all, r.name ≠ "check_magic_numbers" → ∀ p, ∃ fs, r.run p = .ok fs := by
  simp [all, sure, run]

theorem run_magicNumbers : ∀ r ∈ all, r.name = "check_magic_numbers" → r.run p = magicNumbers p := by
  simp [all, sure, run]

theorem run_error {r : Rule} (hr : r ∈ all) :
    r.run p = .error e ↔ r.name = "check_magic_numbers" ∧ p.Overflows ∧ e = .integerTooLarge := by
  by_cases hname : r.name = "check_magic_numbers"
  · simp [run_magicNumbers r hr hname, magicNumbers_error, hname]
  · obtain ⟨fs, hfs⟩ := run_sure r hr hname p
    simp [hfs, hname]

end Rule

theorem runRules_messages (p : Parsed) : (runRules p).2 = Rule.all.filterMap fun r =>
    match r.run p with
    | .ok _ => none
    | .error e => some (r.name ++ ": " ++ e.message) := by
  have herror (r : Rule) : runRules.error? (r, r.run p) = match r.run p with
      | .ok _ => none
      | .error e => some (r.name ++ ": " ++ e.message) := by
    cases r.run p <;> rfl
  simp only [runRules, outcomes, List.filterMap_map, Function.comp_def, herror]

theorem runRules_overflows {p : Parsed} (h : p.Overflows) :
    (runRules p).2 = ["check_magic_numbers: int too large to convert to float"] := by
  have heach : ∀ r ∈ Rule.all, (match r.run p with
      | .ok _ => none
      | .error e => some (r.name ++ ": " ++ e.message)) =
        if r.name = "check_magic_numbers" then some (r.name ++ ": " ++ Failure.integerTooLarge.message)
        else none := by
    intro r hr
    split
    · rename_i fs hfs
      have hname : r.name ≠ "check_magic_numbers" := fun hname => by
        cases hfs.symm.trans ((Rule.run_error hr).2 ⟨hname, h, rfl⟩)
      rw [if_neg hname]
    · rename_i e he
      obtain ⟨hname, -, rfl⟩ := (Rule.run_error hr).1 he
      rw [if_pos hname]
  rw [runRules_messages, List.filterMap_congr heach]
  rfl

theorem runRules_not_overflows {p : Parsed} (h : ¬p.Overflows) : (runRules p).2 = [] := by
  rw [runRules_messages, List.filterMap_eq_nil_iff]
  intro r hr
  cases hrun : r.run p with
  | ok fs => rfl
  | error e => exact absurd ((Rule.run_error hr).1 hrun).2.1 h

/-- Whatever the tree, only the rule on numbers can fail, and it fails exactly at a whole literal beyond the doubles.
A report says so and still has what each other rule finds on its own, in the order of the rules. -/
theorem analyzeFile_failures (b : TreeBuilder) (f : SourceFile) :
    (∀ (p : Parsed) (r : Rule), r ∈ Rule.all →
      ((∃ e, r.run p = .error e) ↔ r.name = "check_magic_numbers" ∧ p.Overflows) ∧
      ∀ fs, r.run p = .ok fs → ∀ g ∈ fs, Schema.finding g.toJson = .ok g) ∧
    ((analyzeFile b f).ruleErrors = [] ∨
      (analyzeFile b f).ruleErrors = ["check_magic_numbers: int too large to convert to float"]) ∧
    ∀ root, TreeBuilder.supports f.path = true → b.parse f.text f.path = .ok (some root) →
      ((analyzeFile b f).ruleErrors ≠ [] ↔ (Parsed.of f.path f.text root).Overflows) ∧
      (analyzeFile b f).findings =
        Rule.all.flatMap fun r => (r.run (.of f.path f.text root)).toOption.getD [] := by
  have htold (root : Node) : (FileReport.ofTree f (.ok (some root))).ruleErrors =
      (runRules (.of f.path f.text root)).2 := rfl
  refine ⟨fun p r hr => ⟨?_, fun _ _ g _ => Schema.finding_toJson g⟩, ?_, fun root hsupported htree => ?_⟩
  · simp [Rule.run_error hr]
  · unfold analyzeFile
    split
    · cases b.parse f.text f.path with
      | error e => exact .inl rfl
      | ok root? =>
        cases root? with
        | none => exact .inl rfl
        | some root =>
          rw [htold]
          by_cases h : (Parsed.of f.path f.text root).Overflows
          · exact .inr (runRules_overflows h)
          · exact .inl (runRules_not_overflows h)
    · exact .inl rfl
  · have hreport : analyzeFile b f = .ofTree f (.ok (some root)) := by
      rw [analyzeFile, if_pos hsupported, htree]
    rw [hreport, htold]
    refine ⟨⟨fun h => ?_, fun h => ?_⟩, runRules_findings _⟩
    · by_contra hn
      exact h (runRules_not_overflows hn)
    · rw [runRules_overflows h]
      exact List.cons_ne_nil _ _

theorem Parsed.overflows_root {p : Parsed} {n : Nat} (hkind : p.root.kind = "number")
    (hvalue : Number.based? (Number.bare (p.between p.root.start p.root.stop)) = some (some n))
    (hn : 2 ^ 1024 - 2 ^ 970 ≤ n) : p.Overflows :=
  ⟨p.top, p.top.mem_walk_self, hkind, n, Number.based?_eq_some.1 hvalue, hn⟩

theorem Parsed.between_ofList (path : String) (s : List Char) (root : Node) (start stop : Nat) :
    (Parsed.of path (String.ofList s) root).between start stop =
      Text.Utf8.decode (((Text.Utf8.encode s).take stop).drop start) := by
  simp only [Parsed.between, Parsed.of, String.toList_ofList]

theorem TreeBuilder.parse_tree {b : TreeBuilder} {g : Grammar} {path : String} {root : Node} (text : String)
    (hg : Grammar.ofPath? path = some g) (hb : b.parser? g = some fun _ => .ok (.tree root)) :
    b.parse text path = .ok (some root) := by
  delta TreeBuilder.parse
  generalize Grammar.ofPath? = look at hg
  simp only [hg, Option.bind_some, hb]

/-- A file that is one literal, which no double is near to. -/
theorem analyzeFile_failures_of_hexadecimal :
    let code := '0' :: 'x' :: '1' :: List.replicate 256 '0'
    let root : Node := ⟨"number", true, none, 0, 259, []⟩
    let builder : TreeBuilder := ⟨fun _ => some fun _ => .ok (.tree root)⟩
    (analyzeFile builder { path := "big.js", text := String.ofList code }).ruleErrors =
      ["check_magic_numbers: int too large to convert to float"] := by
  intro code root builder
  obtain ⟨-, hsingle, htree⟩ := analyzeFile_failures builder { path := "big.js", text := String.ofList code }
  have hvalue : Number.based? (Number.bare (Text.Utf8.decode (((Text.Utf8.encode code).take 259).drop 0))) =
      some (some (2 ^ 1024)) := by
    decide +kernel
  rewrite [← Parsed.between_ofList "big.js" code root] at hvalue
  have hover := Parsed.overflows_root (p := .of "big.js" (String.ofList code) root) rfl hvalue (Nat.sub_le _ _)
  have hgrammar : Grammar.ofPath? "big.js" = some .javascript := by decide +kernel
  have hparsed := TreeBuilder.parse_tree (b := builder) (String.ofList code) hgrammar rfl
  have hsupported : TreeBuilder.supports "big.js" = true := by rw [TreeBuilder.supports, hgrammar, Option.isSome_some]
  exact hsingle.resolve_left ((htree root hsupported hparsed).1.2 hover)

end CodeAudit
