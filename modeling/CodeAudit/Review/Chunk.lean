import CodeAudit.Failure
import CodeAudit.Text.Lines

set_option autoImplicit false

namespace CodeAudit

/-- The size of a window and the lines it shares with its neighbour, fewer than it has. -/
structure Window where
  size : Nat
  overlap : Nat
  overlap_lt : overlap < size := by omega
  deriving DecidableEq, Repr

namespace Window

def step (w : Window) : Nat := w.size - w.overlap

def of (size overlap : Int) : Except Failure Window :=
  if size < 1 then .error (.config s!"max_lines must be >= 1, got {size}")
  else if overlap < 0 then .error (.config s!"overlap_lines must be >= 0, got {overlap}")
  else if h : 0 ≤ overlap ∧ overlap < size then .ok ⟨size.toNat, overlap.toNat, by omega⟩
  else .error (.config s!"overlap_lines ({overlap}) must be smaller than max_lines ({size})")

/-- The windows over `total` lines from the line `start` on, as half-open spans. -/
def spans (w : Window) (total start : Nat) : List (Nat × Nat) :=
  if total ≤ start + w.size then [(start, total)]
  else (start, start + w.size) :: spans w total (start + w.step)
termination_by total - start
decreasing_by
  have := w.overlap_lt
  simp only [step]
  omega

end Window

structure Chunk where
  content : String
  first : Int
  last : Int
  index : Int
  total : Int
  deriving DecidableEq, Repr

namespace Chunk

def lineCount (c : Chunk) : Int := c.last - c.first + 1

/-- A rough measure of length: four characters a token. -/
def tokens (c : Chunk) : Nat := c.content.toList.length / 4

def ofSpan (lines : List (List Char)) (total index : Nat) (span : Nat × Nat) : Chunk :=
  ⟨String.ofList (Text.unlines ((lines.take span.2).drop span.1)), span.1 + 1, span.2, index, total⟩

def split (w : Window) (text : String) : List Chunk :=
  let lines := Text.lines text.toList
  let spans := w.spans lines.length 0
  spans.zipIdx.map fun (s, i) => ofSpan lines spans.length i s

end Chunk
end CodeAudit
