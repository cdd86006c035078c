import CodeAudit.Proofs.Rule.Security
import CodeAudit.Proofs.Text.Case

/-!
Addresses that are not encrypted. Those on the machine itself are left out, and for one of these is taken every address
that mentions a name of the machine itself, be it as the host, as a part of the host, or behind it.
-/
set_option autoImplicit false

namespace CodeAudit

namespace Text
variable {w a b : List Char} {c : Char}

theorem prefix_append_cons (hc : c ∉ w) : w <+: a ++ c :: b ↔ w <+: a := by
  refine ⟨fun h => ?_, fun h => h.trans (List.prefix_append a _)⟩
  induction a generalizing w with
  | nil =>
    cases w with
    | nil => exact List.nil_prefix
    | cons d w =>
      obtain ⟨rfl, -⟩ := List.cons_prefix_cons.1 h
      exact absurd List.mem_cons_self hc
  | cons d a ih =>
    cases w with
    | nil => exact List.nil_prefix
    | cons e w =>
      rw [List.cons_append, List.cons_prefix_cons] at h
      exact List.cons_prefix_cons.2 ⟨h.1, ih (fun hmem => hc (List.mem_cons_of_mem e hmem)) h.2⟩

theorem infix_append_cons (hw : w ≠ []) (hc : c ∉ w) : w <:+: a ++ c :: b ↔ w <:+: a ∨ w <:+: b := by
  induction a with
  | nil =>
    have hprefix : ¬w <+: c :: b := fun h => hw (List.prefix_nil.1 ((prefix_append_cons (a := []) hc).1 h))
    rw [List.nil_append, List.infix_cons_iff, List.infix_nil, or_iff_right hprefix, or_iff_right hw]
  | cons d a ih =>
    have hprefix : w <+: d :: (a ++ c :: b) ↔ w <+: d :: a := prefix_append_cons (a := d :: a) hc
    rw [List.cons_append, List.infix_cons_iff, List.infix_cons_iff, ih, hprefix, or_assoc]

end Text

namespace Rule
variable {p : Parsed} {x : Place} {url host rest w : String}

def hostEnds : List Char := ['/', ':', '?', '#']

def ownNames : List String := ["localhost", "127.0.0.1"]

/-- The address is one without encryption, of this host and with this behind it. -/
structure HasHost (url host rest : String) : Prop where
  text : url = "http://" ++ host ++ rest
  ne_nil : host.toList ≠ []
  within : host.toList.all (!hostEnds.contains ·)
  behind : rest.toList.head?.all hostEnds.contains

/-- No name of the machine stands in the host or behind it. -/
def IsForeign (host rest : String) : Prop :=
  ∀ w ∈ ownNames, ¬w.toList <:+: host.toList ∧ ¬w.toList <:+: rest.toList

def isInsecure (p : Parsed) (x : Place) : Bool := x.kind == "string" && isInsecureUrl (p.stringValue x)

theorem ownNames_plain (hw : w ∈ ownNames) :
    w.toList ≠ [] ∧ hostEnds.all (!w.toList.contains ·) ∧ ¬w.toList <:+: "http:/".toList := by
  revert w
  decide

theorem HasHost.mentions_iff (h : HasHost url host rest) (hw : w ∈ ownNames) :
    Text.contains url w ↔ w.toList <:+: host.toList ∨ w.toList <:+: rest.toList := by
  obtain ⟨hne, hplain, hscheme⟩ := ownNames_plain hw
  have hends : ∀ c ∈ hostEnds, c ∉ w.toList := by simpa using hplain
  have hslash : '/' ∉ w.toList := hends _ (by decide)
  have hurl : url.toList = "http:/".toList ++ '/' :: (host.toList ++ rest.toList) := by
    rw [h.text, String.toList_append, String.toList_append, List.append_assoc]
    rfl
  rw [Text.contains, Text.occursIn_iff, hurl, Text.infix_append_cons hne hslash, or_iff_right hscheme]
  have hbehind := h.behind
  revert hbehind
  cases rest.toList with
  | nil =>
    intro _
    rw [List.append_nil, List.infix_nil, or_iff_left hne]
  | cons c r =>
    intro hbehind
    have hc : c ∉ w.toList := hends c (by simpa using hbehind)
    have hrest : w.toList <:+: c :: r ↔ _ := Text.infix_append_cons (a := []) hne hc
    rw [Text.infix_append_cons hne hc, hrest, List.infix_nil, or_iff_right hne]

theorem HasHost.isInsecureUrl_iff (h : HasHost url host rest) :
    isInsecureUrl url ↔ IsForeign host rest := by
  have hscheme : "http://".toList.isPrefixOf url.toList := by
    rw [List.isPrefixOf_iff_prefix, h.text, String.toList_append, String.toList_append, List.append_assoc]
    exact List.prefix_append _ _
  have hlocal := h.mentions_iff (w := "localhost") (by decide)
  have hnumber := h.mentions_iff (w := "127.0.0.1") (by decide)
  rw [isInsecureUrl, hscheme, Bool.true_and, Bool.not_eq_true', Bool.or_eq_false_iff, Bool.eq_false_iff,
    Bool.eq_false_iff, ne_eq, ne_eq, hlocal, hnumber, not_or, not_or]
  simp [IsForeign, ownNames]

theorem filter_securityAt_url (p : Parsed) (x : Place) :
    (securityAt p x).filter (·.rule == some "prefer-https") =
      if isInsecure p x then [p.report x urlNotice] else [] := by
  by_cases hkind : x.kind = "string"
  · have hurl : securityAt p x = urlFindings p x := by simp [securityAt, hkind]
    have hrule : (p.report x urlNotice).rule = some "prefer-https" := rfl
    rw [hurl, urlFindings, isInsecure, hkind]
    cases isInsecureUrl (p.stringValue x) <;> simp [hrule]
  · have hcodes : Code.insecureUrl ∉ securityCodes x.kind := by
      have hcall : Code.insecureUrl ∉ callCodes := by decide
      have hassignment : Code.insecureUrl ∉ assignmentCodes := by decide
      unfold securityCodes
      grind
    have hnone : isInsecure p x = false := by simp [isInsecure, hkind]
    rw [hnone]
    exact filter_of_bears (fun f => bears_securityAt) hcodes

theorem filter_security_url (p : Parsed) : (security p).filter (·.rule == some "prefer-https") =
    (p.top.walk.filter (isInsecure p)).map (p.report · urlNotice) := by
  rw [security, List.filter_flatMap]
  simp only [filter_securityAt_url, flatMap_if]

theorem HasHost.mem_insecure_iff (h : HasHost (p.stringValue x) host rest) (hx : x ∈ p.top.walk)
    (hkind : x.kind = "string") : x ∈ p.top.walk.filter (isInsecure p) ↔ IsForeign host rest := by
  rw [← h.isInsecureUrl_iff, List.mem_filter, isInsecure, hkind]
  simp [hx]

theorem IsForeign.not_mem_ownNames (h : IsForeign host rest) : host ∉ ownNames :=
  fun hmem => (h host hmem).1 List.infix_rfl

/-- The literals reported for their address are those with a plain one in which the machine is not named. For an address
with a host these are told by what stands in the host and behind it. So the host alone tells it if it is a name of the
machine, or if such a name is also in no other part of it and nowhere behind it. -/
theorem security_host (hx : x ∈ p.top.walk) (hkind : x.kind = "string") (h : HasHost (p.stringValue x) host rest) :
    (security p).filter (·.rule == some "prefer-https") =
      (p.top.walk.filter (isInsecure p)).map (p.report · urlNotice) ∧
    (x ∈ p.top.walk.filter (isInsecure p) ↔ IsForeign host rest) ∧
    ((x ∈ p.top.walk.filter (isInsecure p) ↔ host ∉ ownNames) ↔ host ∈ ownNames ∨ IsForeign host rest) := by
  have hiff := h.mem_insecure_iff hx hkind
  refine ⟨filter_security_url p, hiff, ?_⟩
  rw [hiff]
  constructor
  · intro hagree
    by_cases hown : host ∈ ownNames
    · exact .inl hown
    · exact .inr (hagree.2 hown)
  · rintro (hown | hforeign)
    · exact iff_of_false (fun hforeign => hforeign.not_mem_ownNames hown) (not_not_intro hown)
    · exact iff_of_true hforeign hforeign.not_mem_ownNames

def addressFile (url : String) (stop : Nat) : Parsed :=
  .of "a.js" ("'" ++ url ++ "'") ⟨"program", true, none, 0, stop, [⟨"expression_statement", true, none, 0, stop, [
    ⟨"string", true, none, 0, stop, [
      ⟨"'", false, none, 0, 1, []⟩, ⟨"string_fragment", true, none, 1, stop - 1, []⟩,
      ⟨"'", false, none, stop - 1, stop, []⟩]⟩]⟩]⟩

def addressPlace (url : String) (stop : Nat) : Place :=
  ((addressFile url stop).top.walk[2]?).getD (addressFile url stop).top

/-- `'http://example.com:80/api'` -/
theorem security_host_reported :
    let p := addressFile "http://example.com:80/api" 27
    let x := addressPlace "http://example.com:80/api" 27
    x ∈ p.top.walk ∧ x.kind = "string" ∧ HasHost (p.stringValue x) "example.com" ":80/api" ∧
      x ∈ p.top.walk.filter (isInsecure p) := by
  intro p x
  have hx : x ∈ p.top.walk := List.mem_of_getElem? (i := 2) rfl
  have hhost : HasHost (p.stringValue x) "example.com" ":80/api" :=
    ⟨by decide +kernel, by decide +kernel, by decide +kernel, by decide +kernel⟩
  have hforeign : IsForeign "example.com" ":80/api" := by
    unfold IsForeign
    decide +kernel
  exact ⟨hx, rfl, hhost, (security_host hx rfl hhost).2.1.2 hforeign⟩

/-- Nothing is reported of `'http://example.com/?next=localhost'`. -/
theorem security_host_misjudged :
    ¬∀ (p : Parsed) x host rest, x ∈ p.top.walk → x.kind = "string" → HasHost (p.stringValue x) host rest →
      (p.report x urlNotice ∈ security p ↔ host ∉ ownNames) := by
  intro hall
  let p := addressFile "http://example.com/?next=localhost" 36
  let x := addressPlace "http://example.com/?next=localhost" 36
  have hhost : HasHost (p.stringValue x) "example.com" "/?next=localhost" :=
    ⟨by decide +kernel, by decide +kernel, by decide +kernel, by decide +kernel⟩
  have hnothing : (security p).isEmpty := by decide +kernel
  have hmem := (hall p x _ _ (List.mem_of_getElem? (i := 2) rfl) rfl hhost).2 (by decide +kernel)
  rw [List.isEmpty_iff.1 hnothing] at hmem
  cases hmem

end Rule
end CodeAudit
