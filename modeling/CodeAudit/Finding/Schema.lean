import CodeAudit.Finding.Basic
import CodeAudit.Number.Written

/-!
Checking a value field by field. Each check gives the value it stands for, or every fault in it; a
record's faults come in the order of its fields.
-/
set_option autoImplicit false

namespace CodeAudit.Schema

abbrev Checked (α : Type) := Except (List Fault) α

def fail {α : Type} (d : Defect) : Checked α := .error [⟨[], d⟩]

def both {α β γ : Type} (f : α → β → γ) : Checked α → Checked β → Checked γ
  | .ok a, .ok b => .ok (f a b)
  | .ok _, .error e => .error e
  | .error e, .ok _ => .error e
  | .error e, .error e' => .error (e ++ e')

def apply {α β : Type} (f : Checked (α → β)) (a : Checked α) : Checked β := both (fun f a => f a) f a

def under {α : Type} (s : Step) : Checked α → Checked α
  | .ok a => .ok a
  | .error fs => .error (fs.map (·.under s))

def text : Json → Checked String
  | .string t => .ok t.text
  | _ => fail .notText

def optional {α : Type} (check : Json → Checked α) : Json → Checked (Option α)
  | .null => .ok none
  | v => (check v).map some

/-- The texts of a list of which so many items stand before. -/
def textsFrom (index : Nat) : List Json → Checked (List String)
  | [] => .ok []
  | v :: r => both (· :: ·) (under (.item index) (text v)) (textsFrom (index + 1) r)

def texts : Json → Checked (List String)
  | .array xs => textsFrom 0 xs
  | _ => fail .notList

def record : Json → Checked Fields
  | .object fs => .ok fs
  | _ => fail .notObject

def named {α : Type} (ofName? : String → Option α) : Json → Checked α
  | .string t => match ofName? t.text with
    | some a => .ok a
    | none => fail .notMember
  | _ => fail .notMember

/-- An integer of 64 bits; the least of them does not count. -/
def fitsWord (i : Int) : Bool := i.natAbs < 0x8000000000000000

/-- An integer; also a whole number of at most 64 bits, a truth value and an integer in writing. -/
def integer : Json → Checked Int
  | .int i => .ok i
  | .bool b => .ok (if b then 1 else 0)
  | .float x =>
    match x.truncate? with
    | none => fail .notFinite
    | some i =>
      if !x.isWhole then fail .fractional
      else if fitsWord i then .ok i
      else fail .longInteger
  | .string t => match Number.writtenInteger t.text.toList with
    | .ok i => .ok i
    | .error d => fail d
  | _ => fail .notInteger

def positive (v : Json) : Checked Int :=
  match integer v with
  | .ok i => if 1 ≤ i then .ok i else fail .belowMinimum
  | .error e => .error e

def required {α : Type} (name : String) (check : Json → Checked α) (fs : Fields) : Checked α :=
  under (.field name) (match fs.get? name with
    | some v => check v
    | none => fail .missing)

def defaulted {α : Type} (name : String) (value : α) (check : Json → Checked α) (fs : Fields) :
    Checked α :=
  match fs.get? name with
  | some v => under (.field name) (check v)
  | none => .ok value

/-- A field with two names, of which the first goes before the other. It may be left out. -/
def defaultedEither {α : Type} (name other : String) (value : α) (check : Json → Checked α)
    (fs : Fields) : Checked α :=
  defaulted (if (fs.get? name).isSome then name else other) value check fs

def lineRange (v : Json) : Checked LineRange :=
  match record v with
  | .error _ => fail .notRecord
  | .ok fs =>
    match both Prod.mk (required "start" positive fs) (required "end" positive fs) with
    | .error e => .error e
    | .ok (a, b) =>
      match LineRange.of a b with
      | .ok r => .ok r
      | .error _ => fail .reversed

def finding (v : Json) : Checked Finding :=
  match record v with
  | .error _ => fail .notRecord
  | .ok fs =>
    let build := both Finding.mk (required "category" (named Category.ofName?) fs)
      (required "severity" (named Severity.ofName?) fs)
    let build := apply build (required "title" text fs)
    let build := apply build (required "description" text fs)
    let build := apply build (required "file_path" text fs)
    let build := apply build (required "line_range" lineRange fs)
    let build := apply build (defaulted "code_snippet" none (optional text) fs)
    let build := apply build (defaulted "suggestion" none (optional text) fs)
    let build := apply build (required "source" (named Source.ofName?) fs)
    let build := apply build (defaulted "rule_id" none (optional text) fs)
    apply build (defaulted "metadata" [] record fs)

def orFail {α : Type} (r : Checked α) : Except Failure α :=
  match r with
  | .ok a => .ok a
  | .error fs => .error (.invalid fs)

end CodeAudit.Schema
