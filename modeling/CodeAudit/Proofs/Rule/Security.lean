import CodeAudit.Proofs.Rule.Catalogued

set_option autoImplicit false

namespace CodeAudit.Rule
variable {p : Parsed} {x : Place} {f : Finding} {fs : List Finding} {c : Code} {cs : List Code}

def Bears (cs : List Code) (f : Finding) : Prop := ∃ c ∈ cs, f.rule = some c.name

def textCodes : List Code := [.eval, .functionConstructor, .impliedEval]

def callCodes : List Code := textCodes ++ [.documentWrite, .sqlInjection]

def assignmentCodes : List Code := [.innerHtml, .outerHtml, .unverifiedConnection]

def securityCodes (kind : String) : List Code :=
  if kind == "call_expression" || kind == "new_expression" then callCodes
  else if kind == "assignment_expression" then assignmentCodes
  else if kind == "pair" then [.unverifiedConnection]
  else if kind == "variable_declarator" then [.hardcodedSecret]
  else if kind == "string" then [.insecureUrl]
  else []

theorem bears_report {n : Notice} (h : n.code ∈ cs) : Bears cs (p.report x n) := ⟨n.code, h, rfl⟩

theorem bears_reportLine {n : Notice} (h : n.code ∈ cs) : Bears cs (p.reportLine x n) := ⟨n.code, h, rfl⟩

theorem Bears.mono {ds : List Code} (h : Bears cs f) (hcs : cs ⊆ ds) : Bears ds f := by
  obtain ⟨c, hc, hrule⟩ := h
  exact ⟨c, hcs hc, hrule⟩

theorem filter_of_bears (h : ∀ f ∈ fs, Bears cs f) (hc : c ∉ cs) : fs.filter (·.rule == some c.name) = [] := by
  refine List.filter_eq_nil_iff.2 fun f hf hrule => ?_
  obtain ⟨d, hd, hname⟩ := h f hf
  obtain rfl := Code.name_injective (Option.some.inj (hname.symm.trans (beq_iff_eq.1 hrule)))
  exact hc hd

theorem bears_codeFromText {name : String} (h : f ∈ codeFromText p x name) : Bears textCodes f := by
  have heval : Bears textCodes (p.reportLine x evalNotice) := bears_reportLine (by decide)
  have hconstructor : Bears textCodes (p.reportLine x functionConstructorNotice) := bears_reportLine (by decide)
  have himplied (name : String) : Bears textCodes (p.report x (impliedEvalNotice name)) :=
    bears_report (by simp [impliedEvalNotice, textCodes])
  unfold codeFromText at h
  grind

theorem bears_documentWrites {callee : Option Place} (h : f ∈ documentWrites p x callee) : Bears [.documentWrite] f := by
  have hwrite (method : String) : Bears [.documentWrite] (p.report x (documentWriteNotice method)) :=
    bears_report (by simp [documentWriteNotice])
  unfold documentWrites at h
  grind

theorem bears_sqlCalls {callee : Option Place} (h : f ∈ sqlCalls p x callee) : Bears [.sqlInjection] f := by
  have hquery : Bears [.sqlInjection] (p.reportLine x sqlNotice) := bears_reportLine (by decide)
  unfold sqlCalls at h
  grind

theorem bears_callFindings (h : f ∈ callFindings p x) : Bears callCodes f := by
  have hcode {name : String} (h : f ∈ codeFromText p x name) : Bears callCodes f :=
    (bears_codeFromText h).mono (by decide)
  have hwrites {callee : Option Place} (h : f ∈ documentWrites p x callee) : Bears callCodes f :=
    (bears_documentWrites h).mono (by decide)
  have hqueries {callee : Option Place} (h : f ∈ sqlCalls p x callee) : Bears callCodes f :=
    (bears_sqlCalls h).mono (by decide)
  unfold callFindings at h
  dsimp only at h
  grind

theorem bears_assignmentFindings (h : f ∈ assignmentFindings p x) : Bears assignmentCodes f := by
  have hinner (property : String) : Bears assignmentCodes (p.reportLine x (markupNotice .innerHtml property)) :=
    bears_reportLine (by simp [markupNotice, assignmentCodes])
  have houter (property : String) : Bears assignmentCodes (p.reportLine x (markupNotice .outerHtml property)) :=
    bears_reportLine (by simp [markupNotice, assignmentCodes])
  have hunverified : Bears assignmentCodes (p.reportLine x unverifiedNotice) := bears_reportLine (by decide)
  unfold assignmentFindings at h
  split at h
  · cases h
  · cases List.mem_append.1 h <;> grind

theorem bears_pairFindings (h : f ∈ pairFindings p x) : Bears [.unverifiedConnection] f := by
  have hunverified : Bears [.unverifiedConnection] (p.reportLine x unverifiedNotice) := bears_reportLine (by decide)
  unfold pairFindings at h
  grind

theorem bears_secretFindings (h : f ∈ secretFindings p x) : Bears [.hardcodedSecret] f := by
  have hsecret (name : String) : Bears [.hardcodedSecret] (p.report x (secretNotice name)) :=
    bears_report (by simp [secretNotice])
  unfold secretFindings at h
  grind

theorem bears_urlFindings (h : f ∈ urlFindings p x) : Bears [.insecureUrl] f := by
  have hurl : Bears [.insecureUrl] (p.report x urlNotice) := bears_report (by decide)
  unfold urlFindings at h
  grind

theorem bears_securityAt (h : f ∈ securityAt p x) : Bears (securityCodes x.kind) f := by
  have hcall (h : f ∈ callFindings p x) := bears_callFindings h
  have hassignment (h : f ∈ assignmentFindings p x) := bears_assignmentFindings h
  have hpair (h : f ∈ pairFindings p x) := bears_pairFindings h
  have hsecret (h : f ∈ secretFindings p x) := bears_secretFindings h
  have hurl (h : f ∈ urlFindings p x) := bears_urlFindings h
  unfold securityAt at h
  unfold securityCodes
  grind

end CodeAudit.Rule
