import CodeAudit.Architecture.Schema
import Mathlib.Data.List.Forall2

set_option autoImplicit false

namespace CodeAudit

namespace Schema
open Insights (textOf textsOf either normalLabel)

theorem text_worded (v : Json) : text v.worded = .ok v.shown := by
  cases v <;> rfl

theorem said_wordedOrNull (v : Json) : optional text v.wordedOrNull = .ok (textOf (some v)) := by
  cases v <;> rfl

theorem said_label (v : Json) : optional text v.label = .ok ((textOf (some v)).map normalLabel) := by
  cases v <;> rfl

theorem textsFrom_worded (index : Nat) (xs : List Json) :
    textsFrom index (xs.map Json.worded) = .ok (xs.map Json.shown) := by
  induction xs generalizing index with
  | nil => rfl
  | cons x xs ih =>
    rw [List.map_cons, textsFrom, text_worded, ih]
    rfl

theorem listed_wordedList (v : Json) : texts v.wordedList = .ok (textsOf (some v)) := by
  cases v with
  | array xs => exact textsFrom_worded 0 xs
  | string t => rfl
  | null | bool b | int i | float x | object fs => rfl

variable {α : Type} {check : Json → Checked α} {f : Option Json → α}

theorem defaulted_total (h : ∀ v, check v = .ok (f (some v))) (name : String) (fs : Fields) :
    defaulted name (f none) check fs = .ok (f (fs.get? name)) := by
  unfold defaulted
  split
  · rename_i v hv
    rw [h, hv]
    rfl
  · rename_i hv
    rw [hv]

theorem defaultedEither_total (h : ∀ v, check v = .ok (f (some v))) (name other : String) (fs : Fields) :
    defaultedEither name other (f none) check fs = .ok (f (either name other fs)) := by
  rw [defaultedEither, defaulted_total h, either]
  cases hv : fs.get? name with
  | none => simp
  | some v => simp [hv]

theorem insights_object (fs : Fields) : insights (.object fs) = .ok (Insights.ofFields fs) := by
  have hsaid (name : String) : defaulted name none (fun v => optional text v.wordedOrNull) fs =
      .ok (textOf (fs.get? name)) := defaulted_total said_wordedOrNull name fs
  have hlabel (name : String) : defaulted name none (fun v => optional text v.label) fs =
      .ok ((textOf (fs.get? name)).map normalLabel) :=
    defaulted_total (f := fun v => (textOf v).map normalLabel) said_label name fs
  have hlisted (name : String) : defaulted name [] (fun v => texts v.wordedList) fs =
      .ok (textsOf (fs.get? name)) := defaulted_total listed_wordedList name fs
  have hsaidEither (name other : String) :
      defaultedEither name other none (fun v => optional text v.wordedOrNull) fs =
        .ok (textOf (either name other fs)) := defaultedEither_total said_wordedOrNull name other fs
  have hlistedEither (name other : String) :
      defaultedEither name other [] (fun v => texts v.wordedList) fs =
        .ok (textsOf (either name other fs)) := defaultedEither_total listed_wordedList name other fs
  simp only [insights, record, hsaid, hlabel, hlisted, hsaidEither, hlistedEither]
  rfl

end Schema

namespace Insights

/-- The texts that a field says: a list is kept with its length and its texts, a text is a list of its own, and
anything else says none. -/
structure Lists (v : Option Json) (ts : List String) : Prop where
  array : ∀ xs, v = some (.array xs) →
    List.Forall₂ (fun x t => t = x.shown ∧ ∀ s, x = .string s → t = s.text) xs ts
  string : ∀ t, v = some (.string t) → ts = [t.text]
  other : (∀ xs, v ≠ some (.array xs)) → (∀ t, v ≠ some (.string t)) → ts = []

/-- The text that a field says, after a change of it: null and a missing field say none. -/
structure Says (change : String → String) (v : Option Json) (t : Option String) : Prop where
  none_iff : t = none ↔ v = none ∨ v = some .null
  string : ∀ s, v = some (.string s) → t = some (change s.text)
  other : ∀ x, v = some x → x ≠ .null → t = some (change x.shown)

/-- What is said under the first of two names that is there. -/
def Prior (name other : String) (fs : Fields) (p : Option Json → Prop) : Prop :=
  (∀ v, fs.get? name = some v → p (some v)) ∧ (fs.get? name = none → p (fs.get? other))

/-- The insights say what the object says. -/
structure Reads (fs : Fields) (i : Insights) : Prop where
  pattern : Says id (fs.get? "pattern") i.pattern
  quality : Says normalLabel (fs.get? "quality") i.quality
  issues : Lists (fs.get? "issues") i.issues
  suggestions : Lists (fs.get? "suggestions") i.suggestions
  cycles : Prior "circularDependencies" "circular_dependencies" fs fun v => Lists v i.cycles
  graph : Prior "dependencyGraph" "dependency_graph" fs fun v => Says id v i.graph

theorem lists_textsOf (v : Option Json) : Lists v (textsOf v) where
  array xs h := by
    subst h
    refine List.forall₂_map_right_iff.2 (List.forall₂_same.2 fun x _ => ⟨rfl, ?_⟩)
    rintro s rfl
    rfl
  string t h := by
    subst h
    rfl
  other ha hs := by
    match v with
    | none | some .null | some (.bool _) | some (.int _) | some (.float _) | some (.object _) => rfl
    | some (.array xs) => exact absurd rfl (ha xs)
    | some (.string t) => exact absurd rfl (hs t)

theorem says_textOf (change : String → String) (v : Option Json) : Says change v ((textOf v).map change) where
  none_iff := by
    match v with
    | none | some .null => simp [textOf]
    | some (.bool _) | some (.int _) | some (.float _) | some (.string _) | some (.array _)
    | some (.object _) => simp [textOf]
  string s h := by
    subst h
    rfl
  other x h hx := by
    subst h
    match x with
    | .null => exact absurd rfl hx
    | .bool _ | .int _ | .float _ | .string _ | .array _ | .object _ => rfl

theorem says_textOf_id (v : Option Json) : Says id v (textOf v) := by
  simpa using says_textOf id v

theorem prior_either {p : Option Json → Prop} {name other : String} {fs : Fields}
    (h : p (either name other fs)) : Prior name other fs p := by
  unfold either at h
  refine ⟨fun v hv => ?_, fun hv => ?_⟩
  · rwa [hv] at h
  · rwa [hv] at h

theorem reads_ofFields (fs : Fields) : Reads fs (ofFields fs) where
  pattern := says_textOf_id _
  quality := says_textOf normalLabel _
  issues := lists_textsOf _
  suggestions := lists_textsOf _
  cycles := prior_either (lists_textsOf _)
  graph := prior_either (says_textOf_id _)

/-- Whatever an object holds, it passes the check, and its insights say what it says. -/
theorem checked (fs : Fields) : ∃ i, Schema.insights (.object fs) = .ok i ∧ Reads fs i :=
  ⟨_, Schema.insights_object fs, reads_ofFields fs⟩

end Insights
end CodeAudit
