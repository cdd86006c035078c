import CodeAudit.Proofs.Run.Completed
import CodeAudit.Proofs.Run.Located

set_option autoImplicit false

namespace CodeAudit

def World.answering (limit : Nat) (reply : String → Reply) : World Unit where
  call prompt := return ⟨reply prompt, 0⟩
  sleep _ := return ()
  nesting := limit

namespace Reviewer
variable {σ : Type} {w : World σ} {reply : String → Reply}

theorem reviewBatches_determined (hw : ∀ prompt s, ((w.call prompt).run s).1.reply = reply prompt)
    (r : Reviewer) (path language : String) (bs : List (List Chunk)) (s : σ) :
    ((r.reviewBatches w path language bs).run s).1 =
      ((r.reviewBatches (.answering w.nesting reply) path language bs).run ()).1 := by
  have hchunk (c : Chunk) (s : σ) : ((r.reviewChunk w path language c).run s).1 =
      ((r.reviewChunk (.answering w.nesting reply) path language c).run ()).1 := by
    rw [reviewChunk_eq, reviewChunk_eq]
    simp only [heard, hw]
    rfl
  have hbatch (b : List Chunk) (s : σ) : ((b.mapM (r.reviewChunk w path language)).run s).1 =
      ((b.mapM (r.reviewChunk (.answering w.nesting reply) path language)).run ()).1 := by
    induction b generalizing s with
    | nil => rfl
    | cons c cs ih => rw [mapM_cons_run, mapM_cons_run, ih, hchunk]
  induction bs generalizing s with
  | nil => rfl
  | cons b bs ih =>
    rcases reviewBatches_cons r w path language b bs s with ⟨t, ht⟩
    rcases reviewBatches_cons r (.answering w.nesting reply) path language b bs () with ⟨⟨⟩, ht'⟩
    rw [ht, ht', hbatch, ih]

theorem reviewFile_determined (hw : ∀ prompt s, ((w.call prompt).run s).1.reply = reply prompt) (r : Reviewer)
    (path text language : String) (s : σ) : ((r.reviewFile w path text language).run s).1 =
      ((r.reviewFile (.answering w.nesting reply) path text language).run ()).1 := by
  rw [reviewFile_run, reviewFile_run, reviewBatches_determined hw]

end Reviewer

namespace SourceFile
variable {p : String} {g g' : SourceFile}

def Beside (p : String) (g g' : SourceFile) : Prop := g.path = g'.path ∧ (g.path ≠ p → g.text = g'.text)

theorem Beside.eq (h : Beside p g g') (hg : g.path ≠ p) : g = g' := by
  rcases g with ⟨path, text⟩
  rcases g' with ⟨path', text'⟩
  rcases h with ⟨rfl, htext⟩
  rw [show text = text' from htext hg]

theorem Beside.filter {α : Type} {path : α → String} {xs ys : List α} (h : Beside p g g')
    (hxs : ∀ x ∈ xs, path x = g.path) (hys : ∀ y ∈ ys, path y = g'.path) (heq : g.path ≠ p → xs = ys) :
    xs.filter (fun x => path x ≠ p) = ys.filter (fun y => path y ≠ p) := by
  by_cases hg : g.path = p
  · have hnone {zs : List α} (hzs : ∀ z ∈ zs, path z = p) : zs.filter (fun z => path z ≠ p) = [] := by
      simpa using hzs
    rw [hnone fun x hx => (hxs x hx).trans hg, hnone fun y hy => (hys y hy).trans (h.1.symm.trans hg)]
  · rw [heq hg]

theorem Beside.paths {files files' : List SourceFile} (h : List.Forall₂ (Beside p) files files') :
    files.map path = files'.map path := by
  induction h with
  | nil => rfl
  | cons hg _ ih => rw [List.map_cons, List.map_cons, ih, hg.1]

end SourceFile

theorem filter_flatten_congr {α : Type} {q : α → Bool} {xss yss : List (List α)}
    (h : List.Forall₂ (fun xs ys => xs.filter q = ys.filter q) xss yss) :
    xss.flatten.filter q = yss.flatten.filter q := by
  induction h with
  | nil => rfl
  | cons hxs _ ih => rw [List.flatten_cons, List.flatten_cons, List.filter_append, List.filter_append, hxs, ih]

theorem runRules_errors {x : Parsed} :
    (runRules x).2 ≠ [] ↔ ∃ rule ∈ Rule.all, ∃ e, rule.run x = .error e := by
  have herror (rule : Rule) : runRules.error? (rule, rule.run x) ≠ none ↔ ∃ e, rule.run x = .error e := by
    cases rule.run x <;> simp [runRules.error?]
  simp only [runRules, outcomes, ne_eq, List.filterMap_eq_nil_iff, List.mem_map, not_forall]
  constructor
  · rintro ⟨_, ⟨rule, hrule, rfl⟩, h⟩
    exact ⟨rule, hrule, (herror rule).1 h⟩
  · rintro ⟨rule, hrule, h⟩
    exact ⟨_, ⟨rule, hrule, rfl⟩, (herror rule).2 h⟩

namespace FileReport
variable {tree tree' : String → Except Failure (Option Node)} {p : String} {g g' : SourceFile}

def given (tree : String → Except Failure (Option Node)) (g : SourceFile) : FileReport :=
  if TreeBuilder.supports g.path then .ofTree g (tree g.path) else .skip g

theorem path_given (g : SourceFile) : (given tree g).path = g.path := by
  unfold given
  split
  · exact path_ofTree g _
  · rfl

theorem findings_given {f : Finding} (h : f ∈ (given tree g).findings) : f.path = g.path := by
  unfold given at h
  split at h
  · exact (reports_ofTree h).1.1
  · cases h

theorem notes_given {x : String × String} (h : x ∈ (given tree g).note?.toList) : x.1 = g.path := by
  rw [fst_note (Option.mem_toList.1 h), path_given]

theorem given_beside (hbeside : SourceFile.Beside p g g') (htree : ∀ q, q ≠ p → tree q = tree' q)
    (hg : g.path ≠ p) : given tree g = given tree' g' := by
  rw [hbeside.eq hg]
  unfold given
  rw [htree]
  rwa [← hbeside.1]

theorem note_ne_none {report : FileReport} :
    report.note? ≠ none ↔ report.error ≠ none ∨ report.ruleErrors ≠ [] := by
  unfold note? trouble?
  cases report.error <;> simp

end FileReport

namespace Run
variable {σ : Type}

/-- The file has a grammar but no tree, or one of the rules fails on its tree. -/
def Troubled (tree : String → Except Failure (Option Node)) (g : SourceFile) : Prop :=
  TreeBuilder.supports g.path ∧ ((∀ root, tree g.path ≠ .ok (some root)) ∨
    ∃ root, tree g.path = .ok (some root) ∧
      ∃ rule ∈ Rule.all, ∃ e, rule.run (.of g.path g.text root) = .error e)

theorem note_given (tree : String → Except Failure (Option Node)) (g : SourceFile) :
    (FileReport.given tree g).note? ≠ none ↔ Troubled tree g := by
  rw [FileReport.note_ne_none]
  unfold FileReport.given Troubled
  cases hsupports : TreeBuilder.supports g.path with
  | false => simp [FileReport.skip]
  | true =>
    rw [if_pos rfl]
    unfold FileReport.ofTree
    split
    · rename_i root hroot
      have herrors := runRules_errors (x := .of g.path g.text root)
      simpa [hroot] using herrors
    · rename_i hroot
      exact iff_of_true (by simp) ⟨rfl, .inl hroot⟩

/-- Each of the files gets its tree, or a failure instead, and the model replies to each prompt alike. At the
path `p` a review may also fail for any other reason. -/
structure Steady (c : Collaborators σ) (files : List SourceFile) (tree : String → Except Failure (Option Node))
    (reviewer : Reviewer) (limit : Nat) (reply : String → Reply) (p : String) : Prop where
  supports : ∀ path s, ((c.supports path).run s).1 = .ok (TreeBuilder.supports path)
  build : ∀ g ∈ files, ∀ s, ((c.build g.text g.path).run s).1 = tree g.path
  review : ∀ m, c.model = some m → ∃ w : World σ, w.nesting = limit ∧
    (∀ prompt s, ((w.call prompt).run s).1.reply = reply prompt) ∧ ∀ path text language s,
      ((m.review path text language).run s).1 = ((reviewer.reviewFile w path text language).run s).1 ∨
        path = p ∧ ∃ e, ((m.review path text language).run s).1 = .error e

section
variable {c : Collaborators σ} {files : List SourceFile} {tree : String → Except Failure (Option Node)}
  {reviewer : Reviewer} {limit : Nat} {reply : String → Reply} {p : String}

theorem Steady.mono {files' : List SourceFile} (h : Steady c files tree reviewer limit reply p)
    (hsub : files' ⊆ files) : Steady c files' tree reviewer limit reply p :=
  ⟨h.supports, fun g hg => h.build g (hsub hg), h.review⟩

theorem Steady.reported (h : Steady c files tree reviewer limit reply p) {g : SourceFile} (hg : g ∈ files)
    {report : FileReport} (hreport : Reported c g report) : report = .given tree g :=
  hreport.of_answers (h.supports g.path) (h.build g hg)

theorem Steady.reports (h : Steady c files tree reviewer limit reply p) {reports : List FileReport}
    (hreports : List.Forall₂ (Reported c) files reports) : reports = files.map (.given tree) := by
  induction hreports with
  | nil => rfl
  | cons hreport _ ih =>
    rw [List.map_cons, h.reported List.mem_cons_self hreport, ih (h.mono (List.subset_cons_self _ _))]

def answers (reviewer : Reviewer) (limit : Nat) (reply : String → Reply) (g : SourceFile) : List Finding :=
  ((reviewer.reviewFile (.answering limit reply) g.path g.text g.language.name).run ()).1.toOption.getD []

theorem Steady.found (h : Steady c files tree reviewer limit reply p) {g : SourceFile} {fs : List Finding}
    (hfound : Found c g fs) (hg : g.path ≠ p) :
    fs = if c.model.isSome ∧ isReviewed c.languages g then answers reviewer limit reply g else [] := by
  have hanswer {m : ModelSide σ} (hm : c.model = some m) (s : σ) :
      ((m.review g.path g.text g.language.name).run s).1.toOption.getD [] = answers reviewer limit reply g := by
    rcases h.review m hm with ⟨w, rfl, hw, hreview⟩
    rcases hreview g.path g.text g.language.name s with hs | ⟨hp, -⟩
    · rw [hs, Reviewer.reviewFile_determined hw]
      rfl
    · exact absurd hp hg
  cases hfound with
  | nothing hfailed =>
    -- A review that fails in one state comes to the same failure in every other.
    split
    · rename_i hasked
      rcases Option.isSome_iff_exists.1 hasked.1 with ⟨m, hm⟩
      rcases hfailed hasked.2 m hm with ⟨s, e, he⟩
      rw [← hanswer hm s, he]
      rfl
    · rfl
  | @findings m s _ hm hreviewed hs =>
    rw [if_pos ⟨by rw [hm]; rfl, hreviewed⟩, ← hanswer hm s, hs]
    rfl

theorem Steady.found_path (h : Steady c files tree reviewer limit reply p) {g : SourceFile} {fs : List Finding}
    (hfound : Found c g fs) {f : Finding} (hf : f ∈ fs) : f.path = g.path := by
  cases hfound with
  | nothing => cases hf
  | @findings m s _ hm _ hs =>
    rcases h.review m hm with ⟨w, -, -, hreview⟩
    rcases hreview g.path g.text g.language.name s with heq | ⟨-, e, he⟩
    · exact ((Reviewer.reviewFile_located (heq.symm.trans hs)).1 f hf).path
    · rw [he] at hs
      cases hs

end

section
variable {σ' : Type} {c : Collaborators σ} {c' : Collaborators σ'} {files files' : List SourceFile}
  {tree tree' : String → Except Failure (Option Node)} {reviewer : Reviewer} {limit : Nat} {reply : String → Reply} {p : String}
  {project project' : String} {r r' : RunResult} {s : σ} {s' : σ'}

theorem Steady.completed (h : Steady c files tree reviewer limit reply p) (hfiles : (files.map SourceFile.path).Nodup)
    (hrun : ((analyze c files project).run s).1 = .ok r) (hdone : r.status = .completed) :
    r.rules = (files.map fun g => (FileReport.given tree g).findings).flatten ∧
      r.fileErrors = (files.map fun g => (FileReport.given tree g).note?.toList).flatten ∧
      ∃ found, List.Forall₂ (Found c) files found ∧ r.model = found.flatten := by
  rcases analyze_completed hfiles hrun hdone with ⟨reports, found, hreports, hfound, hholds⟩
  have hgiven := h.reports hreports
  refine ⟨?_, ?_, found, hfound, hholds.model⟩
  · rw [hholds.rules, hgiven, List.flatMap_map, List.flatMap_def]
  · rw [hholds.fileErrors, hgiven, List.filterMap_eq_flatMap_toList, List.flatMap_map, List.flatMap_def]

theorem Steady.mem_fileErrors (h : Steady c files tree reviewer limit reply p)
    (hfiles : (files.map SourceFile.path).Nodup) (hrun : ((analyze c files project).run s).1 = .ok r)
    (hdone : r.status = .completed) (q : String) :
    q ∈ r.fileErrors.map Prod.fst ↔ ∃ g ∈ files, g.path = q ∧ Troubled tree g := by
  rw [(h.completed hfiles hrun hdone).2.1]
  constructor
  · intro hq
    rcases List.mem_map.1 hq with ⟨x, hx, rfl⟩
    rcases List.mem_flatten.1 hx with ⟨xs, hxs, hx⟩
    rcases List.mem_map.1 hxs with ⟨g, hg, rfl⟩
    refine ⟨g, hg, (FileReport.notes_given hx).symm, (note_given tree g).1 fun hnone => ?_⟩
    rw [hnone] at hx
    cases hx
  · rintro ⟨g, hg, rfl, htroubled⟩
    rcases Option.ne_none_iff_exists'.1 ((note_given tree g).2 htroubled) with ⟨x, hx⟩
    refine List.mem_map.2 ⟨x, List.mem_flatten.2 ⟨_, List.mem_map.2 ⟨g, hg, rfl⟩, ?_⟩, ?_⟩
    · rw [hx]
      exact List.mem_singleton_self x
    · rw [FileReport.fst_note hx, FileReport.path_given]

theorem found_beside (h : Steady c files tree reviewer limit reply p) (h' : Steady c' files' tree' reviewer limit reply p)
    (hlanguages : c.languages = c'.languages) (hmodel : c.model.isSome = c'.model.isSome) {gs gs' : List SourceFile}
    (hgs : List.Forall₂ (SourceFile.Beside p) gs gs') {found found' : List (List Finding)}
    (hfound : List.Forall₂ (Found c) gs found) (hfound' : List.Forall₂ (Found c') gs' found') :
    List.Forall₂ (fun fs fs' => fs.filter (fun f => f.path ≠ p) = fs'.filter (fun f => f.path ≠ p))
      found found' := by
  -- One entry for each file in both lists, so that the induction is on the files.
  induction hgs generalizing found found' with
  | nil =>
    cases hfound
    cases hfound'
    exact .nil
  | cons hbeside _ ih =>
    rcases hfound with - | ⟨hg, hfound⟩
    rcases hfound' with - | ⟨hg', hfound'⟩
    refine .cons ?_ (ih hfound hfound')
    refine hbeside.filter (fun f hf => h.found_path hg hf) (fun f hf => h'.found_path hg' hf) fun hp => ?_
    rw [h.found hg hp, h'.found hg' (hbeside.1 ▸ hp), hlanguages, hmodel, hbeside.eq hp]

/-- Two completed runs on files that differ only in the text and the tree at one path have the same findings of
the rules, the same findings of the model and the same errors at all other paths, whatever happens at this one. And
in each of them, the paths with an error are those of the files that have a grammar, and no tree or a tree that a
rule fails on. -/
theorem analyze_isolated (hbeside : List.Forall₂ (SourceFile.Beside p) files files')
    (hfiles : (files.map SourceFile.path).Nodup) (htree : ∀ q, q ≠ p → tree q = tree' q)
    (hlanguages : c.languages = c'.languages) (hmodel : c.model.isSome = c'.model.isSome)
    (h : Steady c files tree reviewer limit reply p) (h' : Steady c' files' tree' reviewer limit reply p)
    (hrun : ((analyze c files project).run s).1 = .ok r) (hdone : r.status = .completed)
    (hrun' : ((analyze c' files' project').run s').1 = .ok r') (hdone' : r'.status = .completed) :
    r.rules.filter (fun f => f.path ≠ p) = r'.rules.filter (fun f => f.path ≠ p) ∧
      r.model.filter (fun f => f.path ≠ p) = r'.model.filter (fun f => f.path ≠ p) ∧
      r.fileErrors.filter (fun x => x.1 ≠ p) = r'.fileErrors.filter (fun x => x.1 ≠ p) ∧
      (∀ q, q ∈ r.fileErrors.map Prod.fst ↔ ∃ g ∈ files, g.path = q ∧ Troubled tree g) ∧
      ∀ q, q ∈ r'.fileErrors.map Prod.fst ↔ ∃ g ∈ files', g.path = q ∧ Troubled tree' g := by
  have hfiles' : (files'.map SourceFile.path).Nodup := SourceFile.Beside.paths hbeside ▸ hfiles
  rcases h.completed hfiles hrun hdone with ⟨hrules, herrors, found, hfound, hfinal⟩
  rcases h'.completed hfiles' hrun' hdone' with ⟨hrules', herrors', found', hfound', hfinal'⟩
  refine ⟨?_, ?_, ?_, h.mem_fileErrors hfiles hrun hdone, h'.mem_fileErrors hfiles' hrun' hdone'⟩
  · rw [hrules, hrules']
    refine filter_flatten_congr (List.forall₂_map_left_iff.2 (List.forall₂_map_right_iff.2 (hbeside.imp ?_)))
    intro g g' hg
    have hsame (hp : g.path ≠ p) : (FileReport.given tree g).findings = (FileReport.given tree' g').findings := by
      rw [FileReport.given_beside hg htree hp]
    exact hg.filter (fun f hf => FileReport.findings_given hf) (fun f hf => FileReport.findings_given hf) hsame
  · rw [hfinal, hfinal']
    exact filter_flatten_congr (found_beside h h' hlanguages hmodel hbeside hfound hfound')
  · rw [herrors, herrors']
    refine filter_flatten_congr (List.forall₂_map_left_iff.2 (List.forall₂_map_right_iff.2 (hbeside.imp ?_)))
    intro g g' hg
    have hsame (hp : g.path ≠ p) :
        (FileReport.given tree g).note?.toList = (FileReport.given tree' g').note?.toList := by
      rw [FileReport.given_beside hg htree hp]
    exact hg.filter (fun x hx => FileReport.notes_given hx) (fun x hx => FileReport.notes_given hx) hsame

end

/-- One of two files: first its parser fails and then its review, and in the other run it is a blank file
with a tree. -/
theorem analyze_isolated_raising :
    let reviewer : Reviewer := ⟨⟨5, 0, by decide⟩, 1, .whole 0, .whole 5, 100⟩
    let reply : String → Reply := fun _ => .content (.text "[\x7b\"line\": 1\x7d]")
    let root : Node := ⟨"debugger_statement", true, none, 0, 1, []⟩
    let m : ModelSide Unit := {
      review := fun path text language =>
        if path = "b.ts" then return .error (.runtime "no answer")
        else reviewer.reviewFile (.answering Script.nesting reply) path text language
      assess := fun _ _ => return .ok none }
    let c (tree : String → Except Failure (Option Node)) : Collaborators Unit := {
      build := fun _ path => return tree path
      model := some m
      languages := ["TypeScript"]
      score := fun _ _ => return .ok ⟨0, [], 0, 0, 0, ⟨0, 0, 0, 0, 0, 0, 0, 0⟩⟩
      save := none
      progress := fun _ _ _ => return .ok () }
    let tree (path : String) := if path = "b.ts" then .error (.runtime "no parser") else .ok (some root)
    let tree' (_ : String) := .ok (some root)
    ∃ r r', ((analyze (c tree) [⟨"a.ts", "x"⟩, ⟨"b.ts", "y"⟩] "p").run ()).1 = .ok r ∧
      ((analyze (c tree') [⟨"a.ts", "x"⟩, ⟨"b.ts", " "⟩] "p").run ()).1 = .ok r' ∧
      r.rules.filter (fun f => f.path ≠ "b.ts") = r'.rules.filter (fun f => f.path ≠ "b.ts") ∧
      r.model.filter (fun f => f.path ≠ "b.ts") = r'.model.filter (fun f => f.path ≠ "b.ts") ∧
      r.rules ≠ [] ∧ r.model ≠ [] ∧ "b.ts" ∈ r.fileErrors.map Prod.fst ∧ r'.fileErrors = [] := by
  intro reviewer reply root m c tree tree'
  have hworks (path text language : String) (hp : path ≠ "b.ts") :
      m.review path text language = reviewer.reviewFile (.answering Script.nesting reply) path text language := if_neg hp
  have hfails (path text language : String) (hp : path = "b.ts") :
      m.review path text language = return .error (.runtime "no answer") := if_pos hp
  have hreview : ∃ g, ((m.review "a.ts" "x" "TypeScript").run ()).1 = .ok [g] := by
    have hsplit : Chunk.split reviewer.window "x" = [⟨"x", 1, 1, 0, 1⟩] := by cbv
    have hissues : Answer.issues Script.nesting "[\x7b\"line\": 1\x7d]".toList = .ok [[("line", .int 1)]] := by cbv
    have hissue : ∃ g, Outcome.normalized ⟨"x", 1, 1, 0, 1⟩ "a.ts" [[("line", .int 1)]] = [g] := ⟨_, rfl⟩
    rcases hissue with ⟨g, hg⟩
    refine ⟨g, ?_⟩
    rw [hworks _ _ _ (by decide), Reviewer.reviewFile_single (by decide) rfl (w := .answering Script.nesting reply) hsplit (fun _ _ => rfl) hissues, hg]
    rfl
  rcases hreview with ⟨g, hreview⟩
  have hasked : askLenient (m.review "a.ts" "x" "TypeScript") = pure (some [g]) := askLenient_eq_pure hreview
  have hlanguage : (SourceFile.language ⟨"a.ts", "x"⟩).name = "TypeScript" := rfl
  have hrun (tree : String → Except Failure (Option Node)) (t : String) (htext : t = "y" ∨ t = " ") : ∃ r,
      ((analyze (c tree) [⟨"a.ts", "x"⟩, ⟨"b.ts", t⟩] "p").run ()).1 = .ok r ∧ r.status = .completed ∧
        r.model = [g] := by
    rw [run_analyze]
    dsimp only [body, Run.review]
    have hmodel : (c tree).model = some m := rfl
    rw [hmodel]
    dsimp only [reviewFiles]
    rw [hlanguage, hasked]
    rcases htext with rfl | rfl
    · exact ⟨_, rfl, rfl, rfl⟩
    · exact ⟨_, rfl, rfl, rfl⟩
  have hsteady (tree : String → Except Failure (Option Node)) (files : List SourceFile) :
      Steady (c tree) files tree reviewer Script.nesting reply "b.ts" := by
    refine ⟨fun _ _ => rfl, fun _ _ _ => rfl, fun m' hm => ?_⟩
    cases hm
    refine ⟨.answering Script.nesting reply, rfl, fun _ _ => rfl, fun path text language s => ?_⟩
    by_cases hp : path = "b.ts"
    · exact .inr ⟨hp, _, by rw [hfails path text language hp]; rfl⟩
    · exact .inl (by rw [hworks path text language hp])
  rcases hrun tree "y" (.inl rfl) with ⟨r, hr, hdone, hfound⟩
  rcases hrun tree' " " (.inr rfl) with ⟨r', hr', hdone', hfound'⟩
  have hbeside : List.Forall₂ (SourceFile.Beside "b.ts") [⟨"a.ts", "x"⟩, ⟨"b.ts", "y"⟩]
      [⟨"a.ts", "x"⟩, ⟨"b.ts", " "⟩] :=
    .cons ⟨rfl, fun _ => rfl⟩ (.cons ⟨rfl, fun h => absurd rfl h⟩ .nil)
  have hlanguages : (c tree).languages = (c tree').languages := rfl
  have hmodel : (c tree).model.isSome = (c tree').model.isSome := rfl
  rcases analyze_isolated hbeside (by decide) (fun q hq => if_neg hq) hlanguages hmodel (hsteady tree _)
    (hsteady tree' _) hr hdone hr' hdone' with ⟨hrules, hmodels, -, herrors, -⟩
  have hnotice : ∃ f fs, (FileReport.given tree ⟨"a.ts", "x"⟩).findings = f :: fs := ⟨_, _, rfl⟩
  have hnone : (FileReport.given tree' ⟨"a.ts", "x"⟩).note? = none ∧
    (FileReport.given tree' ⟨"b.ts", " "⟩).note? = none := ⟨rfl, rfl⟩
  refine ⟨r, r', hr, hr', hrules, hmodels, ?_, by simp [hfound], ?_, ?_⟩
  · rcases hnotice with ⟨f, fs, hnotice⟩
    rw [((hsteady tree _).completed (by decide) hr hdone).1, List.map_cons, List.flatten_cons, hnotice]
    simp
  · exact (herrors "b.ts").2 ⟨⟨"b.ts", "y"⟩, by simp, rfl, rfl, .inl fun _ h => by cases h⟩
  · rw [((hsteady tree' _).completed (by decide) hr' hdone').2.1]
    simp [hnone.1, hnone.2]

end Run
end CodeAudit
