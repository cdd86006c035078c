import CodeAudit.Proofs.Architecture.Checked
import CodeAudit.Proofs.Architecture.Wrapped
import CodeAudit.Proofs.Run.Unanswered

set_option autoImplicit false

namespace CodeAudit

namespace Architecture

/-- Decoding the object of the answer gives up at this excess. -/
def Excessive (limit : Nat) (answer : List Char) (e : Json.Excess) : Prop :=
  Json.ofText limit (objectText answer) = .error (.excess e)

variable {limit : Nat}

theorem Excessive.run {answer : List Char} (h : Excessive limit answer .digits) : Json.Reader.LongRun answer :=
  (Json.ofText_long h).mono (objectText_within answer)

/-- Any other answer gives insights exactly if it holds an object. -/
theorem ofText_of_not_excessive {answer : List Char} (h : ∀ e, ¬Excessive limit answer e) :
    (∃ fs i, Json.ofText limit (objectText answer) = .ok (.object fs) ∧ Schema.insights (.object fs) = .ok i ∧
      i.Reads fs ∧ ofText limit answer = .ok (some i)) ∨
    (∀ fs, Json.ofText limit (objectText answer) ≠ .ok (.object fs)) ∧ ofText limit answer = .ok none := by
  unfold ofText
  split
  · rename_i fs hfs
    obtain ⟨i, hi, hreads⟩ := Insights.checked fs
    exact .inl ⟨fs, i, hfs, hi, hreads, by rw [hi]; rfl⟩
  · rename_i v hne hv
    exact .inr ⟨fun fs hfs => hne fs (Except.ok.inj (hv.symm.trans hfs)), rfl⟩
  · rename_i he
    exact .inr ⟨fun fs hfs => by simp [he] at hfs, rfl⟩
  · rename_i e he
    exact absurd he (h e)

theorem ofText_excessive {answer : List Char} {e : Json.Excess} (h : Excessive limit answer e) :
    ofText limit answer = .error e.failure := by
  rw [ofText, h]

variable {σ : Type} (w : World σ) (timeout : Seconds) (files : List SourceFile) (project : String) (s : σ)

/-- The reply that an assessment hears. -/
def heard : Reply :=
  ((Reviewer.ask w timeout (architecturePrompt files project)).run s).1

theorem assess_nil : ((assess timeout w [] project).run s).1 = .ok none := rfl

theorem assess_run (h : files ≠ []) :
    ((assess timeout w files project).run s).1 = ofReply w.nesting (heard w timeout files project s) := by
  rw [assess, if_neg (by simpa using h)]
  rfl

theorem heard_regular (hw : ((w.call (architecturePrompt files project)).run s).1.reply.Regular) :
    (heard w timeout files project s).Regular := by
  unfold heard Reviewer.ask
  split
  · exact fun v hv => by cases hv
  · exact hw

theorem objectText_bare {c d : Char} (hc : Text.isBlank c = false) (hd : Text.isBlank d = false) {s : List Char}
    (hb : '{' ∉ c :: s ++ [d]) (ht : '`' ∉ c :: s ++ [d]) : objectText (c :: s ++ [d]) = c :: s ++ [d] := by
  have hticks : ¬Fence.ticks <:+: c :: s ++ [d] := fun h => ht (h.subset (a := '`') (by decide))
  have hstrip : Text.strip (c :: s ++ [d]) = c :: s ++ [d] := Text.trimBy_append hc hd [] _ []
  rw [objectText_of_not_brace hb, selected, hstrip, firstBlock?_of_not_ticks hticks]

theorem excessive_longList (hl : 0 < limit) : Excessive limit Answer.longList.toList .digits := by
  rw [Answer.longList, String.toList_ofList, Excessive,
    objectText_bare (by decide) (by decide) (by simp [-List.reduceReplicate]) (by simp [-List.reduceReplicate]),
    Json.ofText_excess]
  exact Json.readAt_ones hl (Nat.le_refl _)

/-- Whatever becomes of the call, an assessment comes to insights or to none, unless the reply that it hears is
lost; and a reply that is lost for an integer holds too many digits in a row. -/
theorem assess_lost (hw : ((w.call (architecturePrompt files project)).run s).1.reply.Regular) :
    (∃ insights, ((assess timeout w files project).run s).1 = .ok insights) ∧
      (files = [] ∨
        ∀ t e, (heard w timeout files project s).text? = some t → ¬Excessive w.nesting t e) ∨
    ∃ e : Json.Excess, ((assess timeout w files project).run s).1 = .error e.failure ∧ files ≠ [] ∧
      ∃ t, (heard w timeout files project s).text? = some t ∧ Excessive w.nesting t e ∧
        (e = .digits → Json.Reader.LongRun t) := by
  by_cases hf : files = []
  · subst hf
    exact .inl ⟨⟨none, assess_nil w timeout project s⟩, .inl rfl⟩
  rw [assess_run w timeout files project s hf]
  obtain he | ⟨e, he⟩ | ⟨t, ht⟩ := (heard_regular w timeout files project s hw).cases
  · exact .inl ⟨⟨none, by rw [he]; rfl⟩, .inr (by simp [he, Reply.text?])⟩
  · exact .inl ⟨⟨none, by rw [he]; rfl⟩, .inr (by simp [he, Reply.text?])⟩
  · rw [ofReply_text ht]
    by_cases hl : ∃ e, Excessive w.nesting t e
    · obtain ⟨e, he⟩ := hl
      refine .inr ⟨e, ofText_excessive he, hf, t, ht, he, ?_⟩
      rintro rfl
      exact he.run
    · have hn := not_exists.1 hl
      refine .inl ⟨?_, .inr fun u e hu => Option.some.inj (ht.symm.trans hu) ▸ hn e⟩
      obtain ⟨fs, i, -, -, -, hi⟩ | ⟨-, hn⟩ := ofText_of_not_excessive hn
      · exact ⟨_, hi⟩
      · exact ⟨_, hn⟩

theorem assess_lost_long :
    let reply : Reply := .content (.text Answer.longList)
    reply.Regular ∧ ((assess (.whole 5) Script.world [⟨"a.py", "x"⟩] "p").run { replies := [⟨reply, 0⟩] }).1 =
      .error .tooManyDigits := by
  have hw : (Reply.content (.text Answer.longList)).Regular := fun v hv => ⟨_, rfl⟩
  refine ⟨hw, ?_⟩
  have hfiles : [SourceFile.mk "a.py" "x"] ≠ [] := List.cons_ne_nil _ _
  have hlong : Excessive Script.nesting Answer.longList.toList .digits := excessive_longList (by decide)
  obtain ⟨-, h⟩ | ⟨e, h, -, t, ht, he, -⟩ := assess_lost Script.world (.whole 5) [⟨"a.py", "x"⟩] "p"
    { replies := [⟨.content (.text Answer.longList), 0⟩] } hw
  · exact absurd hlong (h.resolve_left hfiles _ _ rfl)
  · have htext : (Reply.content (.text Answer.longList)).text? = some Answer.longList.toList := rfl
    rw [← Option.some.inj (htext.symm.trans ht)] at he
    have heq := hlong.symm.trans he
    simp only [Except.error.injEq, Json.Refusal.excess.injEq] at heq
    subst heq
    exact h

/-- One digit too many is enough. -/
theorem assess_not_total :
    ¬∀ reply : Reply, reply.Regular → ∀ files project, ∃ insights,
      ((assess (.whole 5) Script.world files project).run { replies := [⟨reply, 0⟩] }).1 = .ok insights := by
  intro h
  obtain ⟨i, hi⟩ := h (.content (.text Answer.longList)) (fun v hv => ⟨_, rfl⟩) [⟨"a.py", "x"⟩] "p"
  have hlost : ofReply Script.nesting (.content (.text Answer.longList)) = .error .tooManyDigits :=
    (ofReply_text rfl).trans (ofText_excessive (excessive_longList (by decide)))
  rw [assess_run _ _ _ _ _ (List.cons_ne_nil _ _)] at hi
  cases hlost.symm.trans hi

end Architecture
end CodeAudit
