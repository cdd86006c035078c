import CodeAudit.Proofs.Tree.Placed
import CodeAudit.Rule.Binding

/-!
Variables that nothing reads. A name is read where it stands without being bound or assigned there. The rule looks for
this by name in the whole file, so that it makes no difference which declarator of a name is meant, in which scope the
name is read, or whether before or after.
-/
set_option autoImplicit false

namespace CodeAudit.Rule
open Place
variable {p : Parsed} {x y n : Place} {name : String}

/-- The place is a declarator and binds the identifier. -/
def Binds (x n : Place) : Prop := x.kind = "variable_declarator" ∧ x.child? "name" = some n ∧ n.kind = "identifier"

/-- The place is what its parent, an assignment, assigns to. -/
def IsTarget (x : Place) : Prop :=
  ∃ a, x.parent? = some a ∧ a.kind = "assignment_expression" ∧ a.child? "left" = some x

def Names (x : Place) : Prop := x.kind = "identifier" ∨ x.kind = "shorthand_property_identifier"

/-- At the place the name is read. -/
structure Reads (p : Parsed) (name : String) (x : Place) : Prop where
  mem : x ∈ p.top.walk
  names : Names x
  text : p.textOf x = name
  unbound : ¬∃ d ∈ p.top.walk, Binds d x
  used : ¬IsTarget x

/-- The place is a declarator of a name that is nowhere read, and not one to be left alone. -/
def declaresUnused (p : Parsed) (x : Place) : Bool :=
  (boundName? x).any fun n => !((p.textOf n).toList.head? == some '_' || (namesRead p).contains (p.textOf n))

theorem boundName?_eq_some : boundName? x = some n ↔ Binds x n := by
  rw [boundName?, Binds]
  split
  · rename_i hkind
    rw [Option.filter_eq_some_iff, beq_iff_eq, and_iff_right (beq_iff_eq.1 hkind)]
  · rename_i hkind
    simp [beq_iff_eq] at hkind
    simp [hkind]

theorem isAssigned_iff (hx : Placed p.root x) : isAssigned x ↔ IsTarget x := by
  rw [isAssigned, IsTarget]
  cases hparent : x.parent? with
  | none => simp
  | some a =>
    have ha : Placed p.root a := hx.parent hparent
    cases hleft : a.child? "left" with
    | none => simp [hleft]
    | some l => simp [hleft, (ha.of_child? hleft).isAt_iff hx]

/-- The marks on bound names are told apart by the way to them: a place that bears one is bound itself. -/
theorem contains_bound_iff (hx : Placed p.root x) :
    (p.top.walk.filterMap fun d => (boundName? d).map (·.route)).contains x.route ↔ ∃ d ∈ p.top.walk, Binds d x := by
  rw [List.contains_iff_mem, List.mem_filterMap]
  constructor
  · rintro ⟨d, hd, hroute⟩
    obtain ⟨n, hn, hroute⟩ := Option.map_eq_some_iff.1 hroute
    have hbinds := boundName?_eq_some.1 hn
    have hplaced : Placed p.root n := (placed_of_mem_walk hd).of_child? hbinds.2.1
    obtain rfl := hplaced.eq_of_route hx hroute
    exact ⟨d, hd, hbinds⟩
  · rintro ⟨d, hd, hbinds⟩
    exact ⟨d, hd, by rw [boundName?_eq_some.2 hbinds]; rfl⟩

theorem reads_iff (hx : x ∈ p.top.walk) : Reads p name x ↔ p.textOf x = name ∧
    ((x.kind == "identifier" || x.kind == "shorthand_property_identifier") &&
      !(p.top.walk.filterMap fun d => (boundName? d).map (·.route)).contains x.route && !isAssigned x) := by
  have hplaced := placed_of_mem_walk hx
  rw [Bool.and_eq_true, Bool.and_eq_true, Bool.or_eq_true, beq_iff_eq, beq_iff_eq, Bool.not_eq_true', Bool.not_eq_true',
    Bool.eq_false_iff, Bool.eq_false_iff, ne_eq, ne_eq, contains_bound_iff hplaced, isAssigned_iff hplaced]
  constructor
  · rintro ⟨-, hkind, htext, hunbound, hused⟩
    exact ⟨htext, ⟨hkind, hunbound⟩, hused⟩
  · rintro ⟨htext, ⟨hkind, hunbound⟩, hused⟩
    exact ⟨hx, hkind, htext, hunbound, hused⟩

theorem contains_namesRead_iff : (namesRead p).contains name ↔ ∃ x, Reads p name x := by
  rw [List.contains_iff_mem, namesRead, List.mem_map]
  constructor
  · rintro ⟨x, hx, htext⟩
    obtain ⟨hwalk, hx⟩ := List.mem_filter.1 hx
    exact ⟨x, (reads_iff hwalk).2 ⟨htext, hx⟩⟩
  · rintro ⟨x, h⟩
    obtain ⟨htext, hx⟩ := (reads_iff h.mem).1 h
    exact ⟨x, List.mem_filter.2 ⟨h.mem, hx⟩, htext⟩

theorem declaresUnused_of_binds (h : Binds x n) :
    declaresUnused p x ↔ (p.textOf n).toList.head? ≠ some '_' ∧ ¬∃ y, Reads p (p.textOf n) y := by
  rw [declaresUnused, boundName?_eq_some.2 h, Option.any_some, Bool.not_eq_true', Bool.or_eq_false_iff,
    beq_eq_false_iff_ne, Bool.eq_false_iff, ne_eq, ne_eq, contains_namesRead_iff]

theorem declaresUnused_iff : declaresUnused p x ↔
    ∃ n, Binds x n ∧ (p.textOf n).toList.head? ≠ some '_' ∧ ¬∃ y, Reads p (p.textOf n) y := by
  constructor
  · intro h
    obtain ⟨n, hn, -⟩ := (Option.any_eq_true _ _).1 h
    have hbinds := boundName?_eq_some.1 hn
    exact ⟨n, hbinds, (declaresUnused_of_binds hbinds).1 h⟩
  · rintro ⟨n, hbinds, h⟩
    exact (declaresUnused_of_binds hbinds).2 h

theorem unusedVariables_eq (p : Parsed) : unusedVariables p = (p.top.walk.filter (declaresUnused p)).map fun x =>
    p.report x (unusedVariables.notice (p.textOf? (x.child? "name"))) := by
  rw [← List.filterMap_eq_map, List.filterMap_filter, unusedVariables]
  congr 1
  funext x
  rw [declaresUnused]
  cases hn : boundName? x with
  | none => rfl
  | some n =>
    obtain ⟨-, hname, -⟩ := boundName?_eq_some.1 hn
    have htext : p.textOf? (x.child? "name") = p.textOf n := by rw [hname]; rfl
    simp only [Option.map_some, Option.any_some, Function.comp_apply, htext]
    cases (p.textOf n).toList.head? == some '_' || (namesRead p).contains (p.textOf n) <;> rfl

/-- Of the declarators of a file those are reported, in pre-order, that bind an identifier which does not begin with an
underscore and is nowhere read. So all declarators of a name are reported or none; they are not if the name is read
anywhere, and they are if all places with the name bind it or assign to it. -/
theorem unusedVariables_by_name (p : Parsed) :
    unusedVariables p = (p.top.walk.filter (declaresUnused p)).map (fun x =>
      p.report x (unusedVariables.notice (p.textOf? (x.child? "name")))) ∧
    (∀ x, declaresUnused p x ↔
      ∃ n, Binds x n ∧ (p.textOf n).toList.head? ≠ some '_' ∧ ¬∃ y, Reads p (p.textOf n) y) ∧
    (∀ x y m n, Binds x m → Binds y n → p.textOf m = p.textOf n → declaresUnused p x = declaresUnused p y) ∧
    (∀ x n y, Binds x n → Reads p (p.textOf n) y → ¬declaresUnused p x) ∧
    ∀ x n, Binds x n → (p.textOf n).toList.head? ≠ some '_' →
      (∀ y ∈ p.top.walk, Names y → p.textOf y = p.textOf n → (∃ d ∈ p.top.walk, Binds d y) ∨ IsTarget y) →
      declaresUnused p x := by
  refine ⟨unusedVariables_eq p, fun x => declaresUnused_iff, fun x y m n hx hy htext => ?_, fun x n y hx hy h => ?_,
    fun x n hx hhead hall => ?_⟩
  · rw [Bool.eq_iff_iff, declaresUnused_of_binds hx, declaresUnused_of_binds hy, htext]
  · exact ((declaresUnused_of_binds hx).1 h).2 ⟨y, hy⟩
  · refine (declaresUnused_of_binds hx).2 ⟨hhead, ?_⟩
    rintro ⟨y, hy⟩
    cases hall y hy.mem hy.names hy.text with
    | inl hbound => exact hy.unbound hbound
    | inr htarget => exact hy.used htarget

def letterNode (field : String) (start : Nat) : Node := ⟨"identifier", true, some field, start, start + 1, []⟩

def letNode (name stop : Nat) (value : List Node) : Node :=
  ⟨"lexical_declaration", true, none, name - 4, stop + 1, [
    ⟨"let", false, some "kind", name - 4, name - 1, []⟩,
    ⟨"variable_declarator", true, none, name, stop, letterNode "name" name :: value⟩,
    ⟨";", false, none, stop, stop + 1, []⟩]⟩

/-- `let a = c; { let a; a = 2; } let c;` -/
def scopesFile : Parsed := .of "a.js" "let a = c; \x7b let a; a = 2; \x7d let c;" ⟨"program", true, none, 0, 35, [
  letNode 4 9 [⟨"=", false, none, 6, 7, []⟩, letterNode "value" 8],
  ⟨"statement_block", true, none, 11, 28, [
    ⟨"\x7b", false, none, 11, 12, []⟩,
    letNode 17 18 [],
    ⟨"expression_statement", true, none, 20, 26, [
      ⟨"assignment_expression", true, none, 20, 25, [
        letterNode "left" 20, ⟨"=", false, none, 22, 23, []⟩, ⟨"number", true, some "right", 24, 25, []⟩]⟩,
      ⟨";", false, none, 25, 26, []⟩]⟩,
    ⟨"\x7d", false, none, 27, 28, []⟩]⟩,
  letNode 33 34 []]⟩

def scopesPlace (i : Nat) : Place := (scopesFile.top.walk[i]?).getD scopesFile.top

/-- Both declarators of the name that is only assigned to are reported, and not the one of the name that is read before
it is declared. -/
theorem unusedVariables_by_name_scopes :
    let outer := scopesPlace 2
    let inner := scopesPlace 7
    let late := scopesPlace 14
    declaresUnused scopesFile outer ∧ declaresUnused scopesFile inner ∧ ¬declaresUnused scopesFile late ∧
      (unusedVariables scopesFile).map (·.title) = ["Unused variable 'a'", "Unused variable 'a'"] := by
  intro outer inner late
  have houter : Binds outer (scopesPlace 3) := ⟨rfl, rfl, rfl⟩
  have hinner : Binds inner (scopesPlace 8) := ⟨rfl, rfl, rfl⟩
  have hlate : Binds late (scopesPlace 15) := ⟨rfl, rfl, rfl⟩
  have hread : Reads scopesFile "c" (scopesPlace 4) :=
    (reads_iff (List.mem_of_getElem? (i := 4) rfl)).2 ⟨by decide +kernel, by decide +kernel⟩
  have htext : scopesFile.textOf (scopesPlace 3) = scopesFile.textOf (scopesPlace 8) := by decide +kernel
  have hlast : scopesFile.textOf (scopesPlace 15) = "c" := by decide +kernel
  obtain ⟨-, -, hsame, hclears, -⟩ := unusedVariables_by_name scopesFile
  have hunused : declaresUnused scopesFile outer := by decide +kernel
  exact ⟨hunused, hsame _ _ _ _ houter hinner htext ▸ hunused, hclears _ _ _ hlate (hlast ▸ hread), by decide +kernel⟩

end CodeAudit.Rule
