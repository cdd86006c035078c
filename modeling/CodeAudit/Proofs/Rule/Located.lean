import CodeAudit.Proofs.Rule.Found
import CodeAudit.Proofs.Text.Lines
import CodeAudit.Proofs.Text.Utf8

set_option autoImplicit false

namespace CodeAudit

namespace Parsed
variable (p : Parsed)

theorem row_lt (offset : Nat) : p.row offset < Text.lineCount p.text.toList := by
  have htake := List.Sublist.count_le 10 (List.take_sublist offset p.bytes)
  have hencode := Text.Utf8.count_encode p.text.toList
  rw [← p.bytes_eq] at hencode
  rw [Text.lineCount_eq, row]
  omega

structure Reports (p : Parsed) (f : Finding) : Prop where
  path : f.path = p.path
  stop : f.range.stop ≤ Text.lineCount p.text.toList
  source : f.source = .rules
  rule : f.rule ≠ none

theorem reports_notice (n : Notice) {range : LineRange} (h : range.stop ≤ Text.lineCount p.text.toList)
    (snippet : Option String) : p.Reports (n.toFinding p.path range snippet) :=
  ⟨rfl, h, rfl, by simp [Notice.toFinding]⟩

theorem linesOf_stop_le (x : Place) : (p.linesOf x).stop ≤ Text.lineCount p.text.toList :=
  Nat.max_le.2 ⟨p.row_lt _, p.row_lt _⟩

end Parsed

namespace Rule
variable {p : Parsed} {f : Finding}

theorem Found.reports (h : Found p f) : p.Reports f := by
  cases h with
  | plain | deepNesting | longFunction | largeClass => exact p.reports_notice _ (p.linesOf_stop_le _) none
  | plainLine | magicNumber => exact p.reports_notice _ (p.linesOf_stop_le _) _
  | plainStart | complexFunction => exact p.reports_notice _ (show p.row _ + 1 ≤ _ from p.row_lt _) none
  | marker hi m line snippet => exact p.reports_notice _ (show _ + 1 ≤ _ from hi) snippet

theorem reports_complexFile (h : f ∈ complexFile p) : p.Reports f := by
  unfold complexFile at h
  dsimp only at h
  split at h
  · rw [List.mem_singleton.1 h]
    exact p.reports_notice _ (show 1 ≤ _ from Text.lineCount_pos _) none
  · cases h

end Rule

theorem reports_runRules {p : Parsed} {f : Finding} (h : f ∈ (runRules p).1) : p.Reports f := by
  cases found_runRules h with
  | inl h => exact h.reports
  | inr h => exact Rule.reports_complexFile h

end CodeAudit
