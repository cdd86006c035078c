import CodeAudit.Proofs.Review.Excess
import CodeAudit.Proofs.Review.Reference
import CodeAudit.Review.Reviewer

/-!
What the review of a piece comes to. It is a matter of the reply alone: a failure or silence is a fault
of its kind, and a text is searched for issues. Only a text that is lost for an excess of digits or of
nesting makes the review itself fail.
-/
set_option autoImplicit false

namespace CodeAudit

namespace Reply

def text? : Reply → Option (List Char)
  | .content (.string t) => some t.text.toList
  | .content v => if v.isGiven then none else some []
  | _ => none

/-- What the reply holds, if it holds something, is a text. -/
def Regular (r : Reply) : Prop := ∀ v, r = .content v → ∃ t, r.text? = some t

/-- The answer is lost for an excess in it. -/
def Lost (limit : Nat) (r : Reply) (e : Json.Excess) : Prop :=
  ∃ t, r.text? = some t ∧ Answer.Excessive limit t e

theorem not_lost_of_ok {limit : Nat} {r : Reply} {t : List Char} {objects : List Fields} (ht : r.text? = some t)
    (h : Answer.issues limit t = .ok objects) (e : Json.Excess) : ¬r.Lost limit e := by
  rintro ⟨t', ht', he⟩
  cases Option.some.inj (ht.symm.trans ht')
  exact Answer.not_excessive_of_ok h e he

theorem Regular.cases {r : Reply} (h : r.Regular) :
    r = .silence ∨ (∃ e, r = .failure e) ∨ ∃ t, r.text? = some t := by
  cases r with
  | silence => exact .inl rfl
  | failure e => exact .inr (.inl ⟨e, rfl⟩)
  | content v => exact .inr (.inr (h v rfl))

end Reply

namespace Outcome

def fault? : Outcome → Option ReviewFault
  | .found _ => none
  | .failed fault _ => some fault

theorem findings_of_fault {o : Outcome} (h : o.fault? ≠ none) : o.findings = [] := by
  cases o with
  | found fs => exact absurd rfl h
  | failed fault m => rfl

variable {limit : Nat} {timeout : Seconds} {c : Chunk} {path : String} {reply : Reply} {t : List Char}

theorem ofReply_text (h : reply.text? = some t) :
    ofReply limit timeout c path reply = ofText limit c path t := by
  match reply with
  | .content (.string s) =>
    cases h
    rfl
  | .content .null | .content (.bool _) | .content (.int _) | .content (.float _)
  | .content (.array _) | .content (.object _) =>
    simp only [Reply.text?] at h
    split at h
    · cases h
    · cases h
      simp [ofReply, *]

theorem ofText_fault (h : ∀ e, ¬Answer.Excessive limit t e) : ∃ o, ofText limit c path t = .ok o ∧
    ((o.fault? = none ∧ (∃ objects, Answer.issues limit t = .ok objects ∧
        o.findings = normalized c path objects) ∧ ∃ p objects, Answer.ListAt limit t p objects) ∨
      (o.fault? = some .noJson ∧ '[' ∉ t) ∨
      (o.fault? = some .invalidJson ∧ '[' ∈ t ∧ ∀ p objects, ¬Answer.ListAt limit t p objects)) := by
  obtain ⟨objects, hi, p, hp⟩ | ⟨hi, hb⟩ | ⟨hi, hb, hn⟩ := Answer.issues_of_not_excessive h
  · exact ⟨.found (normalized c path objects), by rw [ofText, hi],
      .inl ⟨rfl, ⟨objects, hi, rfl⟩, p, objects, hp⟩⟩
  · exact ⟨_, by rw [ofText, hi]; rfl, .inr (.inl ⟨rfl, hb⟩)⟩
  · exact ⟨_, by rw [ofText, hi]; rfl, .inr (.inr ⟨rfl, hb, hn⟩)⟩

theorem ofText_excessive {e : Json.Excess} (h : Answer.Excessive limit t e) :
    ofText limit c path t = .error e.failure := by
  rw [ofText, Answer.issues_eq_failure_iff.2 h]
  cases e <;> rfl

theorem ofText_cases (limit : Nat) (c : Chunk) (path : String) (t : List Char) :
    (∃ o, ofText limit c path t = .ok o) ∧ (∀ e, ¬Answer.Excessive limit t e) ∨
      ∃ e, ofText limit c path t = .error e.failure ∧ Answer.Excessive limit t e := by
  by_cases h : ∃ e, Answer.Excessive limit t e
  · obtain ⟨e, he⟩ := h
    exact .inr ⟨e, ofText_excessive he, he⟩
  · obtain ⟨o, ho, -⟩ := ofText_fault (not_exists.1 h)
    exact .inl ⟨⟨o, ho⟩, not_exists.1 h⟩

theorem ofReply_excessive {t : String} {e : Json.Excess} (h : Answer.Excessive limit t.toList e)
    (timeout : Seconds) (c : Chunk) (path : String) :
    ofReply limit timeout c path (.content (.text t)) = .error e.failure := by
  have ht : (Reply.content (.text t)).text? = some t.toList := rfl
  rw [ofReply_text ht, ofText_excessive h]

theorem ofReply_cases (limit : Nat) (timeout : Seconds) (c : Chunk) (path : String) (hg : reply.Regular) :
    (∃ o, ofReply limit timeout c path reply = .ok o) ∧ (∀ e, ¬reply.Lost limit e) ∨
      ∃ e, ofReply limit timeout c path reply = .error e.failure ∧ reply.Lost limit e := by
  obtain rfl | ⟨e, rfl⟩ | ⟨t, ht⟩ := hg.cases
  · exact .inl ⟨⟨_, rfl⟩, by simp [Reply.Lost, Reply.text?]⟩
  · exact .inl ⟨⟨_, rfl⟩, by simp [Reply.Lost, Reply.text?]⟩
  · rw [ofReply_text ht]
    obtain ⟨ho, hl⟩ | ⟨e, he, hl⟩ := ofText_cases limit c path t
    · exact .inl ⟨ho, by simpa [Reply.Lost, ht] using hl⟩
    · exact .inr ⟨e, he, t, ht, hl⟩

end Outcome

namespace Reviewer
variable {σ : Type}

/-- What the reviewer hears when it sends a prompt: a failure of its own without permits, and silence
if no time is left from the start. -/
def heard (r : Reviewer) (w : World σ) (prompt : String) (s : σ) : Reply :=
  if r.maxConcurrent < 0 then .failure (.value "Semaphore initial value must be >= 0")
  else if r.timeout.isSpent then .silence
  else ((w.call prompt).run s).1.reply

theorem reviewChunk_eq (r : Reviewer) (w : World σ) (path language : String) (c : Chunk) (s : σ) :
    ((r.reviewChunk w path language c).run s).1 = Outcome.ofReply w.nesting r.timeout c path
      (r.heard w (reviewPrompt c path language r.maxPromptChars) s) := by
  unfold reviewChunk heard
  split
  · rfl
  · unfold ask
    split <;> rfl

theorem heard_regular (r : Reviewer) {w : World σ} (prompt : String) (s : σ)
    (hw : ((w.call prompt).run s).1.reply.Regular) : (r.heard w prompt s).Regular := by
  unfold heard
  split
  · simp [Reply.Regular]
  · split
    · simp [Reply.Regular]
    · exact hw

theorem isSpent_of_isPositive {s : Seconds} (h : s.isPositive) : s.isSpent = false := by
  cases s with
  | whole n =>
    simp only [Seconds.isPositive, decide_eq_true_eq] at h
    simp only [Seconds.isSpent, Seconds.isZero, Seconds.isNegative, Bool.or_eq_false_iff, beq_eq_false_iff_ne,
      decide_eq_false_iff_not]
    omega
  | real x =>
    cases x with
    | finite neg u =>
      cases neg <;> cases u <;> simp_all [Seconds.isPositive, Seconds.isSpent, Seconds.isZero, Seconds.isNegative,
        Binary64.isPositive, Binary64.isZero, Binary64.isNegative]
    | infinite neg =>
      cases neg <;> simp_all [Seconds.isPositive, Seconds.isSpent, Seconds.isZero, Seconds.isNegative,
        Binary64.isPositive, Binary64.isZero, Binary64.isNegative]
    | nan => rfl

theorem heard_eq {r : Reviewer} (hr : 1 ≤ r.maxConcurrent) (ht : r.timeout.isPositive) (w : World σ)
    (prompt : String) (s : σ) : r.heard w prompt s = ((w.call prompt).run s).1.reply := by
  rw [heard, if_neg (by omega), if_neg (by simp [isSpent_of_isPositive ht])]

end Reviewer
end CodeAudit
