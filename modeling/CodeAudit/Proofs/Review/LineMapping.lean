import CodeAudit.Proofs.Finding.Dedupe
import CodeAudit.Proofs.Review.Windows
import CodeAudit.Review.Issue

set_option autoImplicit false

namespace CodeAudit

theorem LineRange.of_valid {start stop : Int} (hs : 1 ≤ start) (hl : start ≤ stop) :
    ∃ r, LineRange.of start stop = .ok r ∧ r.start = start ∧ r.stop = stop :=
  ⟨_, dif_pos ⟨hs, hl⟩, Int.toNat_of_nonneg (by omega), Int.toNat_of_nonneg (by omega)⟩

namespace Issue

def ends : Json → Except Failure (Option Int × Option Int)
  | .object fs => do
    let start ← toInteger ((Fields.get? "start" fs).getD .null)
    let stop ← toInteger ((Fields.get? "end" fs).getD .null)
    return (start, stop)
  | v => do
    let line ← toInteger v
    return (line, line)

theorem lineRange_eq (c : Chunk) (v : Json) : lineRange c v = (ends v).bind fun p =>
    LineRange.of (lineOf c p.1) (max (lineOf c p.1) (lineOf c (p.2.or p.1))) := by
  cases v with
  | null | bool | int | array => rfl
  | float x =>
    cases h : toInteger (.float x) <;> simp [lineRange, ends, h, bind, Except.bind, pure, Except.pure]
  | string t =>
    cases h : toInteger (.string t) <;> simp [lineRange, ends, h, bind, Except.bind, pure, Except.pure]
  | object fs =>
    cases hs : toInteger ((Fields.get? "start" fs).getD .null) <;>
      cases he : toInteger ((Fields.get? "end" fs).getD .null) <;>
      simp [lineRange, ends, hs, he, bind, Except.bind, pure, Except.pure]

variable {c : Chunk}

theorem lineOf_holds (hl : c.first ≤ c.last) (relative : Option Int) :
    c.Holds (lineOf c relative) := by
  simp only [lineOf, Chunk.Holds]
  omega

theorem lineOf_of_holds (hf : 1 ≤ c.first) {line : Int} (hl : c.Holds line) :
    lineOf c (some (line - c.first + 1)) = line := by
  obtain ⟨h₁, h₂⟩ := hl
  simp only [lineOf]
  split
  · rename_i h
    cases h
  · rename_i h
    have hi := Option.some.inj h
    omega
  · rename_i i _ h
    have hi := Option.some.inj h
    omega

theorem lineRange_of_ends (hf : 1 ≤ c.first) (hl : c.first ≤ c.last) {v : Json}
    {start stop : Option Int} (h : ends v = .ok (start, stop)) :
    ∃ r, lineRange c v = .ok r ∧ r.start = lineOf c start ∧
      r.stop = max (lineOf c start) (lineOf c (stop.or start)) := by
  have hs := (lineOf_holds hl start).1
  rw [lineRange_eq, h]
  exact LineRange.of_valid (Int.le_trans hf hs) (Int.le_max_left _ _)

theorem lineRange_within (hf : 1 ≤ c.first) (hl : c.first ≤ c.last) {v : Json}
    {p : Option Int × Option Int} (h : ends v = .ok p) :
    ∃ r, lineRange c v = .ok r ∧ c.first ≤ r.start ∧ r.start ≤ r.stop ∧ r.stop ≤ c.last := by
  obtain ⟨start, stop⟩ := p
  obtain ⟨r, hr, hs, he⟩ := lineRange_of_ends hf hl h
  have h₁ := lineOf_holds hl start
  have h₂ := lineOf_holds hl (stop.or start)
  exact ⟨r, hr, hs ▸ h₁.1, r.start_le, he ▸ Int.max_le.2 ⟨h₁.2, h₂.2⟩⟩

theorem lineRange_bounds (hf : 1 ≤ c.first) (hl : c.first ≤ c.last) {v : Json} {r : LineRange}
    (h : lineRange c v = .ok r) : c.first ≤ r.start ∧ r.stop ≤ c.last := by
  have heq := h
  rw [lineRange_eq] at heq
  cases he : ends v with
  | error e =>
    rw [he] at heq
    cases heq
  | ok p =>
    obtain ⟨range, hrange, hstart, -, hstop⟩ := lineRange_within hf hl he
    obtain rfl := Except.ok.inj (h.symm.trans hrange)
    exact ⟨hstart, hstop⟩

def BeginsAt (raw : Fields) (line : Int) : Prop := ∃ stop, ends (reference raw) = .ok (some line, stop)

theorem beginsAt_of_int {raw : Fields} {line : Int} (h : reference raw = .int line) :
    BeginsAt raw line := ⟨some line, by rw [h]; rfl⟩

/-- An issue that begins at a line of its piece is reported at that line of the file. -/
theorem toFinding_of_beginsAt (hf : 1 ≤ c.first) {line : Int} (hl : c.Holds line) {raw : Fields}
    (h : BeginsAt raw (line - c.first + 1)) (path : String) :
    ∃ f, toFinding raw c path = .ok f ∧ f.path = path ∧ f.range.start = line ∧
      f.title = textOr "Untitled Issue" (raw.get? "title") := by
  obtain ⟨stop, he⟩ := h
  obtain ⟨r, hr, hs, -⟩ := lineRange_of_ends hf (Int.le_trans hl.1 hl.2) he
  rw [lineOf_of_holds hf hl] at hs
  exact ⟨_, by rw [toFinding, hr]; rfl, rfl, hs, rfl⟩

/-- Every reference whose numbers can be read becomes a range of the piece it came from, and a line number
of the piece that line of the file. So what two pieces report of a line they share has one key, and only
the first report of it is kept. -/
theorem lines_agree (w : Window) (text : String) :
    (∀ c ∈ Chunk.split w text, ∀ v p, ends v = .ok p →
      ∃ r, lineRange c v = .ok r ∧ c.first ≤ r.start ∧ r.start ≤ r.stop ∧ r.stop ≤ c.last) ∧
    (∀ c ∈ Chunk.split w text, ∀ i, 1 ≤ i → i ≤ c.lineCount →
      ∃ r, lineRange c (.int i) = .ok r ∧ r.start = c.first + i - 1 ∧ r.stop = c.first + i - 1) ∧
    ∀ c ∈ Chunk.split w text, ∀ d ∈ Chunk.split w text, ∀ line, c.Holds line → d.Holds line →
      ∀ a b path, BeginsAt a (line - c.first + 1) → BeginsAt b (line - d.first + 1) →
        a.get? "title" = b.get? "title" →
        ∃ f g, toFinding a c path = .ok f ∧ toFinding b d path = .ok g ∧ f.range.start = line ∧
          f.key = g.key ∧ Findings.dedupe [f, g] = [f] ∧ ∀ before between after,
            Findings.dedupe (before ++ f :: between ++ g :: after) =
              Findings.dedupe (before ++ f :: between ++ after) := by
  have hn {c : Chunk} (hc : c ∈ Chunk.split w text) : 1 ≤ c.first ∧ c.first ≤ c.last := by
    obtain ⟨k, hk⟩ := List.mem_iff_getElem?.1 hc
    exact Chunk.split_nonempty hk
  refine ⟨fun c hc v p h => lineRange_within (hn hc).1 (hn hc).2 h, fun c hc i h₁ h₂ => ?_,
    fun c hc d hd line hlc hld a b path ha hb ht => ?_⟩
  · have hh : c.Holds (c.first + i - 1) := by
      unfold Chunk.lineCount at h₂
      exact ⟨by omega, by omega⟩
    have hi : c.first + i - 1 - c.first + 1 = i := by omega
    have hl := lineOf_of_holds (hn hc).1 hh
    rw [hi] at hl
    obtain ⟨r, hr, hs, he⟩ := lineRange_of_ends (hn hc).1 (hn hc).2 (v := .int i) rfl
    exact ⟨r, hr, hs.trans hl, (he.trans (Int.max_self _)).trans hl⟩
  · obtain ⟨f, hf, hpf, hlf, htf⟩ := toFinding_of_beginsAt (hn hc).1 hlc ha path
    obtain ⟨g, hg, hpg, hlg, htg⟩ := toFinding_of_beginsAt (hn hd).1 hld hb path
    have hk : f.key = g.key := by
      have hs : f.range.start = g.range.start := by omega
      rw [Finding.key, Finding.key, hpf, hpg, hs, htf, htg, ht]
    have hm : g.key ∈ [f].map Finding.key := by simp [hk]
    refine ⟨f, g, hf, hg, hlf, hk, Findings.dedupe_append_cons hm [], fun before between after => ?_⟩
    exact Findings.dedupe_append_cons (by simp [hk]) after

/-- The third of four lines, which two windows of three hold, reported by number and by text. -/
theorem lines_agree_shared : ∃ f g,
    toFinding [("title", .text "T"), ("lineNumber", .int 3)] ⟨"a\nb\nc", 1, 3, 0, 2⟩ "p" = .ok f ∧
    toFinding [("line", .text "1"), ("title", .text "T")] ⟨"c\nd", 3, 4, 1, 2⟩ "p" = .ok g ∧
    Findings.dedupe [f, g] = [f] := by
  have hs : Chunk.split ⟨3, 1, by decide⟩ "a\nb\nc\nd" =
      [⟨"a\nb\nc", 1, 3, 0, 2⟩, ⟨"c\nd", 3, 4, 1, 2⟩] := by cbv
  obtain ⟨f, g, hf, hg, -, -, hd, -⟩ := (lines_agree ⟨3, 1, by decide⟩ "a\nb\nc\nd").2.2 _
    (by rw [hs]; exact .head _) _ (by rw [hs]; exact .tail _ (.head _)) 3
    ⟨by decide, by decide⟩ ⟨by decide, by decide⟩
    [("title", .text "T"), ("lineNumber", .int 3)] [("line", .text "1"), ("title", .text "T")] "p"
    (beginsAt_of_int rfl) ⟨some 1, rfl⟩ rfl
  exact ⟨f, g, hf, hg, hd⟩

end Issue
end CodeAudit
