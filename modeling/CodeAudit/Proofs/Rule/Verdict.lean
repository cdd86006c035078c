import CodeAudit.Proofs.Rule.Failing
import CodeAudit.Proofs.Tree.Nodes

/-!
What is said of one number. It is told by the text of the number, by the lines on which it stands and by its ancestors,
as far as their kinds and those of their children go, so that no other number has a part in it. Only whether anything is
said at all depends on the other numbers: one that is beyond the doubles silences them all.
-/
set_option autoImplicit false

namespace CodeAudit

/-- What a node shows of itself: its kind, and its children's kinds and fields. -/
def Node.outline (n : Node) : String × List (String × Option String) :=
  (n.kind, n.children.map fun c => (c.kind, c.field))

def Place.setting (x : Place) : List (Nat × String × List (String × Option String)) :=
  x.trail.map fun s => (s.1, s.2.outline)

def Parsed.numbers (p : Parsed) : List Place := p.top.walk.filter (·.kind == "number")

/-- The places have the same text, stand on the same lines and have the same ancestors, as far as can be seen in
outline. -/
structure Parsed.Alike (p q : Parsed) (x y : Place) : Prop where
  path : p.path = q.path
  text : p.textOf x = q.textOf y
  lines : p.linesOf x = q.linesOf y
  line : p.lineOf x = q.lineOf y
  setting : x.setting = y.setting

namespace Rule
open Place
variable {p q : Parsed} {x y : Place}

def verdict (p : Parsed) (x : Place) : List Finding := (magicNumberAt p x).toOption.getD []

theorem findIdx?_outline (n : Node) (field : String) :
    n.children.findIdx? (·.field == some field) = n.outline.2.findIdx? (·.2 == some field) := by
  rw [Node.outline, List.findIdx?_map]
  rfl

theorem isHeldAs_eq (field : String) (kinds : List String) (x : Place) : isHeldAs field kinds x =
    match x.setting with
    | [] => false
    | (i, kind, cs) :: _ => kinds.contains kind && cs.findIdx? (·.2 == some field) == some i := by
  obtain ⟨node, trail⟩ := x
  cases trail with
  | nil => rfl
  | cons s trail =>
    obtain ⟨i, n⟩ := s
    have hroute (c? : Option Place) (y : Place) : c?.any (·.isAt y) = (c?.map route == some (route y)) := by
      cases c? <;> rfl
    have hindex (j? : Option Nat) (r : List Nat) : (j?.map (· :: r) == some (i :: r)) = (j? == some i) := by
      cases j? <;> simp
    have hheld : isHeldAs field kinds ⟨node, (i, n) :: trail⟩ = (kinds.contains n.kind &&
        ((Place.mk n trail).child? field).any (·.isAt ⟨node, (i, n) :: trail⟩)) := by
      simp only [isHeldAs, parent?]
      cases (Place.mk n trail).child? field <;> rfl
    have hhere : route ⟨node, (i, n) :: trail⟩ = i :: route ⟨n, trail⟩ := rfl
    rw [hheld, hroute, hhere, child?_route, hindex, findIdx?_outline]
    rfl

theorem isHeldAs_congr (h : x.setting = y.setting) (field : String) (kinds : List String) :
    isHeldAs field kinds x = isHeldAs field kinds y := by
  rw [isHeldAs_eq, isHeldAs_eq, h]

theorem declarationKeyword?_eq (x : Place) : x.declarationKeyword? =
    match x.setting with
    | [] => none
    | (_, kind, cs) :: _ =>
      if kind == "variable_declaration" then some "var"
      else if kind == "lexical_declaration" then cs.head?.map (·.1)
      else none := by
  obtain ⟨node, trail⟩ := x
  cases trail with
  | nil => rfl
  | cons s trail =>
    have hfirst : (Place.mk s.2 trail).children.head?.map kind = s.2.outline.2.head?.map (·.1) := by
      have hkinds : (Place.mk s.2 trail).children.map kind = s.2.outline.2.map (·.1) := by
        rw [Node.outline, List.map_map, ← children_node ⟨s.2, trail⟩, List.map_map]
        rfl
      rw [← List.head?_map, ← List.head?_map, hkinds]
    simp only [declarationKeyword?, parent?, hfirst]
    rfl

theorem isConstant_cons (n : Node) (a : Nat × Node) (s : List (Nat × Node)) : isConstant ⟨n, a :: s⟩ =
    if a.2.kind == "variable_declarator" then (Place.mk a.2 s).declarationKeyword? == some "const"
    else isConstant ⟨a.2, s⟩ := by
  have hclimb : (Place.mk n (a :: s)).ancestors = ⟨a.2, s⟩ :: (Place.mk a.2 s).ancestors := rfl
  have hkind : (Place.mk a.2 s).kind = a.2.kind := rfl
  rw [isConstant, isConstant, hclimb, List.find?_cons, hkind]
  cases a.2.kind == "variable_declarator" <;> rfl

theorem isConstant_congr (h : x.setting = y.setting) : isConstant x = isConstant y := by
  obtain ⟨n, s⟩ := x
  obtain ⟨m, t⟩ := y
  -- from the nearest ancestor upwards, both ways at once
  induction s generalizing n m t with
  | nil =>
    cases t with
    | nil => rfl
    | cons b t => cases h
  | cons a s ih =>
    cases t with
    | nil => cases h
    | cons b t =>
      obtain ⟨hhead, htail⟩ := List.cons.inj h
      have hkind : a.2.kind = b.2.kind := congrArg (·.2.1) hhead
      have hkeyword : (Place.mk a.2 s).declarationKeyword? = (Place.mk b.2 t).declarationKeyword? := by
        have hsetting : (Place.mk a.2 s).setting = (Place.mk b.2 t).setting := htail
        rw [declarationKeyword?_eq, declarationKeyword?_eq, hsetting]
      rw [isConstant_cons, isConstant_cons, hkind, hkeyword, ih a.2 b.2 t htail]

def isExcused (x : Place) : Bool := isArrayIndex x || isDefaultValue x || isConstant x

/-- What there is to say of a number, wherever it stands. -/
def remarks (p : Parsed) (x : Place) : List Notice :=
  match Number.literal? (p.between x.node.start x.node.stop) with
  | .ok (some v) => if isCommon v || isExcused x then [] else [magicNotice v]
  | _ => []

theorem verdict_eq (p : Parsed) (x : Place) : verdict p x = (remarks p x).map (p.reportLine x) := by
  unfold verdict magicNumberAt remarks
  cases Number.literal? (p.between x.node.start x.node.stop) with
  | error e => rfl
  | ok v? =>
    cases v? with
    | none => rfl
    | some v =>
      dsimp only
      rw [isExcused, ← Bool.or_assoc, ← Bool.or_assoc]
      split <;> rfl

theorem isExcused_congr (h : x.setting = y.setting) : isExcused x = isExcused y := by
  simp only [isExcused, isArrayIndex, isDefaultValue, isHeldAs_congr h, isConstant_congr h]

theorem remarks_congr (htext : p.textOf x = q.textOf y) (h : x.setting = y.setting) : remarks p x = remarks q y := by
  have hliteral : p.between x.node.start x.node.stop = q.between y.node.start y.node.stop :=
    String.ofList_injective htext
  rw [remarks, remarks, hliteral, isExcused_congr h]

theorem verdict_congr (h : p.Alike q x y) : verdict p x = verdict q y := by
  have hreport : p.reportLine x = q.reportLine y := by
    funext n
    rw [Parsed.reportLine, Parsed.reportLine, h.path, h.lines, h.line]
  rw [verdict_eq, verdict_eq, remarks_congr h.text h.setting, hreport]

theorem mapM_eq_ok {α β : Type} {g : α → Except Failure β} {xs : List α} {other : β}
    (h : ∀ x ∈ xs, ∀ e, g x ≠ .error e) : xs.mapM g = .ok (xs.map fun x => (g x).toOption.getD other) := by
  induction xs with
  | nil => rfl
  | cons x xs ih =>
    rw [List.mapM_cons, ih fun y hy => h y (List.mem_cons_of_mem x hy), List.map_cons]
    cases hx : g x with
    | error e => exact absurd hx (h x List.mem_cons_self e)
    | ok y => rfl

theorem magicNumbers_eq (h : ∀ x ∈ p.numbers, ∀ e, magicNumberAt p x ≠ .error e) :
    magicNumbers p = .ok (p.numbers.flatMap (verdict p)) := by
  have hall : p.numbers.mapM (magicNumberAt p) = .ok (p.numbers.map (verdict p)) := mapM_eq_ok h
  rw [List.flatMap_def]
  exact congrArg (Except.map List.flatten) hall

theorem magicNumbers_ok (h : ¬p.Overflows) : magicNumbers p = .ok (p.numbers.flatMap (verdict p)) := by
  refine magicNumbers_eq fun x hx e he => ?_
  obtain ⟨hwalk, hkind⟩ := List.mem_filter.1 hx
  obtain ⟨⟨n, hn, hbeyond⟩, -⟩ := Number.literal?_error.1 (magicNumberAt_error.1 he)
  exact h ⟨x, hwalk, beq_iff_eq.1 hkind, n, hn, hbeyond⟩

/-- If no number of a file is beyond the doubles, its findings are what is said of each number, one after the other; if
one is, there are none. What there is to say of a number is told by its own text and by its ancestors, and is said of
the lines on which it stands: in two files in which these are the same it is the same, whatever the other numbers are. -/
theorem magicNumbers_local (p : Parsed) :
    (¬p.Overflows → magicNumbers p = .ok (p.numbers.flatMap (verdict p))) ∧
    (p.Overflows → magicNumbers p = .error .integerTooLarge) ∧
    (∀ x, verdict p x = (remarks p x).map (p.reportLine x)) ∧
    (∀ q x y, p.textOf x = q.textOf y → x.setting = y.setting → remarks p x = remarks q y) ∧
    ∀ q x y, p.Alike q x y → verdict p x = verdict q y :=
  ⟨magicNumbers_ok, fun h => magicNumbers_error.2 ⟨h, rfl⟩, verdict_eq p, fun _ _ _ => remarks_congr,
    fun _ _ _ => verdict_congr⟩

end Rule

def declarationNode (keyword : String) (start nameSize digits : Nat) : Node :=
  let name := start + keyword.length + 1
  let sign := name + nameSize + 1
  let stop := sign + 2 + digits
  ⟨"lexical_declaration", true, none, start, stop + 1, [
    ⟨keyword, false, some "kind", start, name - 1, []⟩,
    ⟨"variable_declarator", true, none, name, stop, [
      ⟨"identifier", true, some "name", name, name + nameSize, []⟩, ⟨"=", false, none, sign, sign + 1, []⟩,
      ⟨"number", true, some "value", sign + 2, stop, []⟩]⟩,
    ⟨";", false, none, stop, stop + 1, []⟩]⟩

def timeoutNode (digits : Nat) : Node :=
  ⟨"program", true, none, 0, digits + 31, [declarationNode "const" 0 3 digits, declarationNode "let" (digits + 14) 7 2]⟩

def timeoutText (literal : List Char) : List Char :=
  "const BIG = ".toList ++ literal ++ ";\nlet timeout = 42;".toList

def timeoutFile (literal : List Char) : Parsed :=
  .of "a.js" (String.ofList (timeoutText literal)) (timeoutNode literal.length)

def timeoutPlace (digits : Nat) : Place :=
  let declaration := declarationNode "let" (digits + 14) 7 2
  let declarator := (declaration.children[1]?).getD declaration
  ⟨(declarator.children[2]?).getD declarator, [(2, declarator), (1, declaration), (1, timeoutNode digits)]⟩

theorem mem_numbers_timeoutFile {literal : List Char} {digits : Nat} (h : literal.length = digits) :
    timeoutPlace digits ∈ (timeoutFile literal).numbers := by
  subst h
  exact List.mem_filter.2 ⟨List.mem_of_getElem? (i := 8) rfl, rfl⟩

theorem exists_literal_timeoutFile (literal : List Char) :
    ∃ x ∈ (timeoutFile literal).numbers, x.node.start = 12 ∧ x.node.stop = 12 + literal.length :=
  ⟨_, List.mem_filter.2 ⟨List.mem_of_getElem? (i := 4) rfl, rfl⟩, rfl, rfl⟩

/-- Two places are alike if their texts, rows and first lines are, in files that are told by their characters. -/
theorem Parsed.alike_ofList {path : String} {s t : List Char} {m n : Node} {x y : Place}
    (htext : Text.Utf8.decode (((Text.Utf8.encode s).take x.node.stop).drop x.node.start) =
      Text.Utf8.decode (((Text.Utf8.encode t).take y.node.stop).drop y.node.start))
    (hstart : ((Text.Utf8.encode s).take x.node.start).count 10 = ((Text.Utf8.encode t).take y.node.start).count 10)
    (hstop : ((Text.Utf8.encode s).take x.node.stop).count 10 = ((Text.Utf8.encode t).take y.node.stop).count 10)
    (hline : ((Text.lines s)[((Text.Utf8.encode s).take x.node.start).count 10]?).map Text.strip =
      ((Text.lines t)[((Text.Utf8.encode t).take y.node.start).count 10]?).map Text.strip)
    (hsetting : x.setting = y.setting) :
    (Parsed.of path (String.ofList s) m).Alike (.of path (String.ofList t) n) x y := by
  have hrow (s : List Char) (root : Node) (offset : Nat) :
      (Parsed.of path (String.ofList s) root).row offset = ((Text.Utf8.encode s).take offset).count 10 := by
    simp only [Parsed.row, Parsed.of, String.toList_ofList]
  have hlineOf (s : List Char) (root : Node) (x : Place) : (Parsed.of path (String.ofList s) root).lineOf x =
      ((((Text.lines s)[((Text.Utf8.encode s).take x.node.start).count 10]?).map Text.strip).map
        String.ofList).getD "" := by
    have htext : (Parsed.of path (String.ofList s) root).text.toList = s := String.toList_ofList
    rw [Parsed.lineOf, Parsed.startRow, hrow, htext]
    split <;> simp_all
  refine ⟨rfl, ?_, ?_, ?_, hsetting⟩
  · rw [Parsed.textOf, Parsed.textOf, Parsed.between_ofList, Parsed.between_ofList, htext]
  · simp only [Parsed.linesOf, Parsed.startRow, Parsed.stopRow, hrow, hstart, hstop]
  · rw [hlineOf, hlineOf, hline]

namespace Rule

def shortLiteral : List Char := "0x10".toList

def longLiteral : List Char := '0' :: 'x' :: '1' :: List.replicate 256 '0'

theorem timeoutFile_alike :
    (timeoutFile shortLiteral).Alike (timeoutFile longLiteral) (timeoutPlace 4) (timeoutPlace 259) :=
  Parsed.alike_ofList (by decide +kernel) (by decide +kernel) (by decide +kernel) (by decide +kernel) rfl

theorem titles_timeoutFile :
    (magicNumbers (timeoutFile shortLiteral)).toOption.map (·.map (·.title)) = some ["Magic number: 42"] := by
  decide +kernel

theorem overflows_timeoutFile : (timeoutFile longLiteral).Overflows := by
  obtain ⟨x, hx, hstart, hstop⟩ := exists_literal_timeoutFile longLiteral
  obtain ⟨hwalk, hkind⟩ := List.mem_filter.1 hx
  refine ⟨x, hwalk, beq_iff_eq.1 hkind, 16 ^ 256, Number.based?_eq_some.1 ?_, by decide +kernel⟩
  rw [hstart, hstop, timeoutFile, Parsed.between_ofList]
  decide +kernel

/-- The same place in two files, with a long literal in the other line or a short one. What there is to say of it is the
same, and with the short one is said. -/
theorem magicNumbers_local_beside :
    (¬(timeoutFile shortLiteral).Overflows ∧ magicNumbers (timeoutFile shortLiteral) =
      .ok ((timeoutFile shortLiteral).numbers.flatMap (verdict (timeoutFile shortLiteral)))) ∧
    ((timeoutFile longLiteral).Overflows ∧ magicNumbers (timeoutFile longLiteral) = .error .integerTooLarge) ∧
    verdict (timeoutFile shortLiteral) (timeoutPlace 4) = verdict (timeoutFile longLiteral) (timeoutPlace 259) := by
  obtain ⟨hok, -, -, -, hsame⟩ := magicNumbers_local (timeoutFile shortLiteral)
  have hsure : ¬(timeoutFile shortLiteral).Overflows := fun h => by
    have herror : magicNumbers (timeoutFile shortLiteral) = .error .integerTooLarge := magicNumbers_error.2 ⟨h, rfl⟩
    have htitles := titles_timeoutFile
    rw [herror] at htitles
    cases htitles
  exact ⟨⟨hsure, hok hsure⟩, ⟨overflows_timeoutFile, (magicNumbers_local _).2.1 overflows_timeoutFile⟩,
    hsame _ _ _ timeoutFile_alike⟩

/-- With the short literal in the other line the number 42 is reported, and with the long one nothing is: the findings
are not, in every file, what some function says of one number after the other. -/
theorem magicNumbers_silenced :
    timeoutPlace 4 ∈ (timeoutFile shortLiteral).numbers ∧
    timeoutPlace 259 ∈ (timeoutFile longLiteral).numbers ∧
    (timeoutFile shortLiteral).Alike (timeoutFile longLiteral) (timeoutPlace 4) (timeoutPlace 259) ∧
    (magicNumbers (timeoutFile shortLiteral)).toOption.map (·.map (·.title)) = some ["Magic number: 42"] ∧
    magicNumbers (timeoutFile longLiteral) = .error .integerTooLarge ∧
    ¬∃ said : Parsed → Place → List Finding, ∀ p, magicNumbers p = .ok (p.numbers.flatMap (said p)) := by
  have hsilent : magicNumbers (timeoutFile longLiteral) = .error .integerTooLarge :=
    magicNumbers_error.2 ⟨overflows_timeoutFile, rfl⟩
  refine ⟨mem_numbers_timeoutFile rfl, mem_numbers_timeoutFile (by decide +kernel), timeoutFile_alike,
    titles_timeoutFile, hsilent, ?_⟩
  rintro ⟨said, hsaid⟩
  cases hsilent.symm.trans (hsaid _)

end Rule
end CodeAudit
