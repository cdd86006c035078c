import CodeAudit.Tree.Parsed
import CodeAudit.Tree.Walk

set_option autoImplicit false

namespace CodeAudit

namespace Place

def kindIs (kind : String) (p : Option Place) : Bool :=
  match p with
  | some p => p.kind == kind
  | none => false

/-- The place inside any layers of parentheses: at each layer the first named child. -/
def unwrapFrom (trail : List (Nat × Node)) : Nat → Node → Option Place
  | 0, n => some ⟨n, trail⟩
  | fuel + 1, n =>
    if n.kind == "parenthesized_expression" then
      match (Place.mk n trail).namedChildren with
      | c :: _ => unwrapFrom c.trail fuel c.node
      | [] => none
    else some ⟨n, trail⟩

mutual

def height : Node → Nat
  | ⟨_, _, _, _, _, children⟩ => heightEach children + 1

def heightEach : List Node → Nat
  | [] => 0
  | c :: r => max (height c) (heightEach r)

end

def unwrapParens (p : Option Place) : Option Place :=
  p.bind fun p => unwrapFrom p.trail (height p.node) p.node

def declarationKeyword? (p : Place) : Option String :=
  match p.parent? with
  | none => none
  | some d =>
    if d.kind == "variable_declaration" then some "var"
    else if d.kind == "lexical_declaration" then d.children.head?.map (·.kind)
    else none

def isInterpolated (p : Option Place) : Bool :=
  match p with
  | some p => p.kind == "template_string" && p.namedChildren.any (·.kind == "template_substitution")
  | none => false

/-- The first argument of a call, comments aside; of a tagged template, the template. -/
def firstArgument? (call : Place) : Option Place :=
  match call.child? "arguments" with
  | none => none
  | some args =>
    if args.kind == "template_string" then some args
    else (args.namedChildren.filter (·.kind != "comment")).head?

def isAsync (p : Place) : Bool := p.children.any (·.kind == "async")

end Place

namespace Parsed

def memberParts? (p : Parsed) (x : Option Place) : Option (String × String) :=
  match x with
  | none => none
  | some x =>
    if x.kind != "member_expression" then none
    else
      match x.child? "object", x.child? "property" with
      | some o, some m => some (p.textOf o, p.textOf m)
      | _, _ => none

def unquote (s : List Char) : List Char :=
  match s with
  | q :: c :: r =>
    if (q = '\'' ∨ q = '"' ∨ q = '`') ∧ (c :: r).getLast? = some q then (c :: r).dropLast else s
  | _ => s

def stringValue (p : Parsed) (x : Place) : String :=
  String.ofList (unquote (p.between x.node.start x.node.stop))

/-- A function's own name, else that of the variable, key or target it is given to. -/
def functionName (p : Parsed) (x : Place) : String :=
  match x.child? "name" with
  | some n => p.textOf n
  | none => (x.parent?.bind holder?).getD "anonymous"
where
  holder? (h : Place) : Option String :=
    if h.kind == "variable_declarator" then
      match h.child? "name" with
      | some n => if n.kind == "identifier" then some (p.textOf n) else none
      | none => none
    else if h.kind == "pair" || h.kind == "assignment_expression" then
      ((h.child? "key").or (h.child? "left")).map p.textOf
    else none

end Parsed
end CodeAudit
