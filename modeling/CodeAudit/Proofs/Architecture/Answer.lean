import CodeAudit.Architecture.Assess
import CodeAudit.Proofs.Architecture.Block
import CodeAudit.Proofs.Json.Balanced

set_option autoImplicit false

namespace CodeAudit

namespace Text

theorem trimBy_within (p : Char → Bool) (s : List Char) : trimBy p s <:+: s :=
  (List.rdropWhile_prefix p _).isInfix.trans (List.dropWhile_suffix p).isInfix

end Text

namespace Architecture
open Fence (ticks)

theorem FirstBody.within {s body : List Char} (h : FirstBody s body) : body <:+: s := by
  obtain ⟨r, b, hr⟩ := h
  obtain ⟨tag, t, -, rfl, -, k, rfl⟩ := hr.best.lazy.holds
  exact List.IsInfix.trans ⟨ticks ++ (tag ++ (b ++ ['\n'])), closing ++ k, by simp⟩ hr.within.isInfix

theorem selected_within (answer : List Char) : selected answer <:+: answer := by
  unfold selected
  dsimp only
  split
  · rename_i body hb
    exact (Text.trimBy_within _ _).trans ((firstBlock?_eq_some_iff.1 hb).within.trans (Text.trimBy_within _ _))
  · exact Text.trimBy_within _ _

theorem untilClosed_begins (r : Reading) (s : List Char) : untilClosed r s <+: s := by
  induction s generalizing r with
  | nil => exact List.nil_prefix
  | cons c s ih =>
    rw [untilClosed, List.prefix_cons_inj]
    split
    · exact List.nil_prefix
    · exact ih _

theorem objectText_within (answer : List Char) : objectText answer <:+: answer := by
  unfold objectText
  dsimp only
  split
  · exact selected_within answer
  · rename_i t ht
    have htail := List.dropWhile_suffix (l := selected answer) (· ≠ '{')
    exact (untilClosed_begins _ _).isInfix.trans (htail.isInfix.trans (selected_within answer))

theorem objectText_of_first_brace {answer before tail : List Char} (h : selected answer = before ++ '{' :: tail)
    (hbefore : '{' ∉ before) : objectText answer = untilClosed ⟨0, false, false⟩ ('{' :: tail) := by
  have hdrop : (selected answer).dropWhile (· ≠ '{') = '{' :: tail := by
    rw [h, List.dropWhile_append_of_pos fun c hc => by simpa using ne_of_mem_of_not_mem hc hbefore]
    simp
  unfold objectText
  dsimp only
  rw [hdrop]

theorem objectText_eq_selected {answer : List Char} (h : '{' ∉ selected answer) :
    objectText answer = selected answer := by
  have hnone : (selected answer).dropWhile (· ≠ '{') = [] :=
    List.dropWhile_eq_nil_iff.2 fun c hc => by simpa using ne_of_mem_of_not_mem hc h
  unfold objectText
  dsimp only
  rw [hnone]

theorem objectText_of_not_brace {answer : List Char} (h : '{' ∉ answer) : objectText answer = selected answer :=
  objectText_eq_selected fun hmem => h ((selected_within answer).subset hmem)

end Architecture

namespace Json
open Reader

theorem ofText_object {limit : Nat} {s : List Char} {fs : Fields} (h : ofText limit s = .ok (.object fs)) : '{' ∈ s := by
  obtain ⟨r, hr, -⟩ := ofText_eq_ok.1 h
  obtain ⟨w, -, hw⟩ := readAt_object hr
  exact (skip_suffix s).subset (hw ▸ List.mem_cons_self)

end Json

namespace Architecture

theorem ofText_of_not_brace {limit : Nat} {answer : List Char} (h : '{' ∉ answer) :
    (ofText limit answer).toOption.join = none := by
  unfold ofText
  split
  · rename_i fs hfs
    rw [objectText_of_not_brace h] at hfs
    exact absurd ((selected_within answer).subset (Json.ofText_object hfs)) h
  · rfl
  · rfl
  · rfl

end Architecture
end CodeAudit
