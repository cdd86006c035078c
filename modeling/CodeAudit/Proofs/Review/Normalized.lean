import CodeAudit.Proofs.Review.Located
import CodeAudit.Proofs.Review.Reference
import CodeAudit.Proofs.Text.Trimmed

set_option autoImplicit false

namespace CodeAudit.Issue
variable {α : Type} {name : α → String} {ofName? : String → Option α} {default : String} {value : Option Json}
  {c : Chunk} {raw : Fields} {path : String} {f : Finding}

def Finds (name : α → String) (ofName? : String → Option α) : Prop := ∀ s a, ofName? s = some a ↔ name a = s

theorem Finds.of_find? {all : List α} (h : ∀ a, all.find? (fun b => name b == name a) = some a) :
    Finds name fun s => all.find? fun b => name b == s := by
  intro s a
  constructor
  · intro hs
    simpa using List.find?_some hs
  · rintro rfl
    exact h a

theorem finds_category : Finds Category.name Category.ofName? := .of_find? fun a => by cases a <;> rfl

theorem finds_severity : Finds Severity.name Severity.ofName? := .of_find? fun a => by cases a <;> rfl

def Names (name : α → String) (label : Option Json) (a : α) : Prop :=
  ∃ t, label = some (.string t) ∧ name a = Text.lowered (Text.trimmed t.text)

/-- The member that the label names; the default where it names none. -/
structure Labelled (name : α → String) (default : α) (label : Option Json) (a : α) : Prop where
  named : ∀ b, Names name label b → a = b
  other : (∀ b, ¬Names name label b) → a = default

theorem labelled_of_names (hf : Finds name ofName?) {label : Option Json} {a : α} (h : Names name label a)
    (default : α) : labelled ofName? default label = a := by
  obtain ⟨t, rfl, ht⟩ := h
  rw [labelled, (hf _ a).2 ht, Option.getD_some]

theorem labelled_default (hf : Finds name ofName?) {label : Option Json} (h : ∀ b, ¬Names name label b)
    (default : α) : labelled ofName? default label = default := by
  unfold labelled
  split
  · rename_i t
    cases hs : ofName? (Text.lowered (Text.trimmed t.text)) with
    | none => rfl
    | some b => exact absurd ⟨t, rfl, (hf _ b).1 hs⟩ (h b)
  · rfl

theorem labelled_spec (hf : Finds name ofName?) (default : α) (label : Option Json) :
    Labelled name default label (labelled ofName? default label) where
  named := fun _ h => labelled_of_names hf h default
  other := fun h => labelled_default hf h default

/-- A text to show, with no blank at either end: what the value shows between blanks, or the default where it
shows nothing else. -/
structure Worded (default : String) (value : Option Json) (t : String) : Prop where
  ne_empty : t ≠ ""
  tight : Text.Tight t.toList
  shown : ∀ v, value = some v → v ≠ .null → ¬Text.Blank v.shown.toList →
    ∃ a b, v.shown.toList = a ++ (t.toList ++ b) ∧ Text.Blank a ∧ Text.Blank b
  absent : (∀ v, value = some v → v = .null ∨ Text.Blank v.shown.toList) → t = default

theorem trimmed_eq_empty_iff {s : String} : Text.trimmed s = "" ↔ Text.Blank s.toList := by
  rw [← Text.strip_eq_nil_iff, Text.trimmed, ← String.toList_inj, String.toList_ofList]
  rfl

theorem textOr_default (h : ∀ v, value = some v → v = .null ∨ Text.Blank v.shown.toList) :
    textOr default value = default := by
  unfold textOr
  split
  · rfl
  · rfl
  · rename_i v hnull
    have hblank := (h v rfl).resolve_left fun hv => hnull hv
    simp [trimmed_eq_empty_iff.2 hblank]

theorem textOr_shown {v : Json} (hnull : v ≠ .null) (hblank : ¬Text.Blank v.shown.toList) :
    textOr default (some v) = Text.trimmed v.shown := by
  have hne : Text.trimmed v.shown ≠ "" := fun h => hblank (trimmed_eq_empty_iff.1 h)
  simp [textOr, hne]

theorem textOr_worded (hne : default ≠ "") (ht : Text.Tight default.toList) (value : Option Json) :
    Worded default value (textOr default value) := by
  by_cases h : ∀ v, value = some v → v = .null ∨ Text.Blank v.shown.toList
  · rw [textOr_default h]
    refine ⟨hne, ht, ?_, fun _ => rfl⟩
    intro v hv hnull hblank
    exact absurd (h v hv) (not_or.2 ⟨hnull, hblank⟩)
  · simp only [not_forall, not_or] at h
    obtain ⟨v, rfl, hnull, hblank⟩ := h
    rw [textOr_shown hnull hblank]
    obtain ⟨htight, hwithin⟩ := Text.strip_eq_iff.1 (Eq.refl (Text.strip v.shown.toList))
    have hlist : (Text.trimmed v.shown).toList = Text.strip v.shown.toList := String.toList_ofList
    refine ⟨fun h => hblank (trimmed_eq_empty_iff.1 h), hlist ▸ htight, ?_, ?_⟩
    · intro w hw _ _
      obtain rfl := Option.some.inj hw
      rw [hlist]
      exact hwithin
    · intro habsent
      exact absurd (habsent v rfl) (not_or.2 ⟨hnull, hblank⟩)

/-- The finding that an issue comes to in a piece of a file. -/
structure Normalized (raw : Fields) (c : Chunk) (path : String) (f : Finding) : Prop where
  title : Worded "Untitled Issue" (raw.get? "title") f.title
  description : Worded "No description provided." (raw.get? "description") f.description
  category : Labelled Category.name .codeQuality (raw.get? "category") f.category
  severity : Labelled Severity.name .medium (raw.get? "severity") f.severity
  path : f.path = path
  start : c.first ≤ f.range.start
  stop : f.range.stop ≤ c.last
  source : f.source = .model
  rule : f.rule = none
  metadata : f.metadata = ([("chunk_index", .int c.index)] : Fields)

theorem of_toFinding_words (h : toFinding raw c path = .ok f) :
    f.title = textOr "Untitled Issue" (raw.get? "title") ∧
      f.description = textOr "No description provided." (raw.get? "description") ∧
      f.category = labelled Category.ofName? .codeQuality (raw.get? "category") ∧
      f.severity = labelled Severity.ofName? .medium (raw.get? "severity") := by
  unfold toFinding at h
  cases hr : lineRange c (reference raw) with
  | error e =>
    rw [hr] at h
    cases h
  | ok range =>
    rw [hr] at h
    cases h
    exact ⟨rfl, rfl, rfl, rfl⟩

theorem Normalized.of_toFinding (hf : 1 ≤ c.first) (hl : c.first ≤ c.last) (h : toFinding raw c path = .ok f) :
    Normalized raw c path f := by
  obtain ⟨hrange, hpath, hsource, hrule, hmetadata⟩ := Issue.of_toFinding h
  obtain ⟨htitle, hdescription, hcategory, hseverity⟩ := of_toFinding_words h
  obtain ⟨hstart, hstop⟩ := lineRange_bounds hf hl hrange
  have huntitled : Text.Tight "Untitled Issue".toList := by constructor <;> simp [Text.isBlank]
  have hundescribed : Text.Tight "No description provided.".toList := by constructor <;> simp [Text.isBlank]
  exact {
    title := htitle ▸ textOr_worded (by decide) huntitled _
    description := hdescription ▸ textOr_worded (by decide) hundescribed _
    category := hcategory ▸ labelled_spec finds_category _ _
    severity := hseverity ▸ labelled_spec finds_severity _ _
    path := hpath
    start := hstart
    stop := hstop
    source := hsource
    rule := hrule
    metadata := hmetadata }

/-- Whatever an issue in a piece of a text holds, it is refused exactly if its lines cannot be told, and comes to a
finding otherwise. -/
theorem toFinding_normalized {w : Window} {text : String} (hc : c ∈ Chunk.split w text) (raw : Fields)
    (path : String) :
    ((∃ e, toFinding raw c path = .error e) ↔ ¬Readable (reference raw)) ∧
      (Readable (reference raw) → ∃ f, toFinding raw c path = .ok f ∧ Normalized raw c path f) := by
  obtain ⟨hf, hl, -⟩ := Chunk.ends_within hc
  have hok : (∃ f, toFinding raw c path = .ok f) ↔ Readable (reference raw) := by
    rw [toFinding_ok_iff, and_iff_left (hf.trans hl)]
  constructor
  · rw [← hok]
    cases toFinding raw c path <;> simp
  · intro hr
    obtain ⟨f, h⟩ := hok.2 hr
    exact ⟨f, h, .of_toFinding hf hl h⟩

/-- In the second of two pieces: an issue without a title, with an odd label, no severity and a line beyond the piece,
and one whose line is not a number. -/
theorem toFinding_normalized_second :
    (∃ f, toFinding [("title", .text " \n"), ("category", .text " SECURITY\n"), ("severity", .int 1),
        ("lineNumber", .text "99"), ("line", .float .nan)] ⟨"c\nd", 3, 4, 1, 2⟩ "p" = .ok f ∧
      f.title = "Untitled Issue" ∧ f.category = .security ∧ f.severity = .medium ∧ (3 : Int) ≤ f.range.start ∧
      (f.range.stop : Int) ≤ 4) ∧
    ∃ e, toFinding [("title", .text "T"), ("line_number", .float .nan)] ⟨"c\nd", 3, 4, 1, 2⟩ "p" = .error e := by
  have hs : Chunk.split ⟨3, 1, by decide⟩ "a\nb\nc\nd" =
      [⟨"a\nb\nc", 1, 3, 0, 2⟩, ⟨"c\nd", 3, 4, 1, 2⟩] := by cbv
  have hc : (⟨"c\nd", 3, 4, 1, 2⟩ : Chunk) ∈ Chunk.split ⟨3, 1, by decide⟩ "a\nb\nc\nd" := by
    rw [hs]
    exact .tail _ (.head _)
  constructor
  · obtain ⟨f, hf, hn⟩ := (toFinding_normalized hc [("title", .text " \n"), ("category", .text " SECURITY\n"),
      ("severity", .int 1), ("lineNumber", .text "99"), ("line", .float .nan)] "p").2 (by decide)
    have hsecurity : Names Category.name (some (.text " SECURITY\n")) .security := ⟨.whole " SECURITY\n", rfl, by cbv⟩
    refine ⟨f, hf, hn.title.absent ?_, hn.category.named _ hsecurity, hn.severity.other ?_, hn.start, hn.stop⟩
    · intro v hv
      cases hv
      exact .inr (by simp [Text.Blank, Json.text, Json.shown, LooseText.text, Text.isBlank])
    · intro b hb
      obtain ⟨t, ht, -⟩ := hb
      cases ht
  · exact (toFinding_normalized hc [("title", .text "T"), ("line_number", .float .nan)] "p").1.2 (by decide)

end CodeAudit.Issue
