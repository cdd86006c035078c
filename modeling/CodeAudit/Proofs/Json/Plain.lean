import CodeAudit.Json.Writer
import Mathlib.Data.List.Basic

set_option autoImplicit false

namespace CodeAudit.Json

mutual

theorem write_plain : ∀ (v : Json) (depth : Nat), v.write .plain depth = render .plain v
  | .null, _ | .bool _, _ | .int _, _ | .float _, _ | .string _, _ | .array [], _ | .object [], _ => rfl
  | .array (x :: xs), depth => by
    rw [render, write, write, write_plain x (depth + 1), write_plain x (0 + 1),
      writeItems_plain xs depth]
    rfl
  | .object ((n, v) :: fs), depth => by
    rw [render, write, write, write_plain v (depth + 1), write_plain v (0 + 1),
      writeFields_plain fs depth]
    rfl

theorem writeItems_plain : ∀ (xs : List Json) (depth : Nat),
    writeItems .plain depth xs = writeItems .plain 0 xs
  | [], _ => rfl
  | x :: xs, depth => by
    simp only [writeItems, write_plain x, writeItems_plain xs depth]
    rfl

theorem writeFields_plain : ∀ (fs : Fields) (depth : Nat),
    writeFields .plain depth fs = writeFields .plain 0 fs
  | [], _ => rfl
  | (n, v) :: fs, depth => by
    simp only [writeFields, write_plain v, writeFields_plain fs depth]
    rfl

end

def plainItems (xs : List Json) : List Char := writeItems .plain 0 xs

def plainFields (fs : Fields) : List Char := writeFields .plain 0 fs

def plainMember (n : LooseText) (v : Json) : List Char :=
  writeString n ++ ':' :: ' ' :: render .plain v

theorem render_array_cons (x : Json) (xs : List Json) :
    render .plain (.array (x :: xs)) = '[' :: (render .plain x ++ plainItems xs) := by
  rw [render, write, write_plain x]
  rfl

theorem plainItems_cons (x : Json) (xs : List Json) :
    plainItems (x :: xs) = ',' :: ' ' :: (render .plain x ++ plainItems xs) := by
  rw [plainItems, writeItems, write_plain x]
  rfl

theorem render_object (n : LooseText) (v : Json) (fs : Fields) :
    render .plain (.object ((n, v) :: fs)) = '{' :: (plainMember n v ++ plainFields fs) := by
  rw [render, write, write_plain v]
  simp [Layout.lineBreak, Layout.plain, plainMember, plainFields]

theorem plainFields_cons (n : LooseText) (v : Json) (fs : Fields) :
    plainFields ((n, v) :: fs) = ',' :: ' ' :: (plainMember n v ++ plainFields fs) := by
  rw [plainFields, writeFields, write_plain v]
  simp [Layout.lineBreak, Layout.plain, plainMember, plainFields]

def plainInside : List Json → List Char
  | [] => [']']
  | x :: xs => render .plain x ++ plainItems xs

theorem render_array (xs : List Json) :
    render .plain (.array xs) = '[' :: plainInside xs := by
  cases xs with
  | nil => rfl
  | cons x xs => exact render_array_cons x xs

theorem plainItems_eq (xs : List Json) :
    plainItems xs = xs.flatMap (fun x => [',', ' '] ++ render .plain x) ++ [']'] := by
  induction xs with
  | nil => rfl
  | cons x xs ih => simp [plainItems_cons, ih]

theorem plainFields_eq (fs : Fields) :
    plainFields fs = fs.flatMap (fun f => [',', ' '] ++ plainMember f.1 f.2) ++ ['\x7d'] := by
  induction fs with
  | nil => rfl
  | cons f fs ih =>
    obtain ⟨n, v⟩ := f
    simp [plainFields_cons, ih]

theorem append_split {w v p q : List Char} (h : w ++ v = p ++ q) :
    (∃ a, p = w ++ a ∧ v = a ++ q) ∨ ∃ b, w = p ++ b ∧ b ≠ [] := by
  obtain ⟨a, hp, hv⟩ | ⟨b, hp, hq⟩ := List.append_eq_append_iff.1 h
  · exact .inl ⟨a, hp, hv⟩
  · cases b with
    | nil => exact .inl ⟨[], by simpa using hp.symm, by simpa using hq.symm⟩
    | cons c b => exact .inr ⟨c :: b, hp, by simp⟩

end CodeAudit.Json
