import CodeAudit.Proofs.Run.Completed
import CodeAudit.Proofs.Run.Unanswered
import CodeAudit.Proofs.Source.Listed

set_option autoImplicit false

namespace CodeAudit

/-- The extensions with a grammar and without a language. -/
def Grammar.unlisted : List String := [".mjs", ".cjs"]

theorem Grammar.isSome_ofExtension? (e : String) :
    (ofExtension? e).isSome ↔ Language.ofExtension? e = some .javascript ∨ Language.ofExtension? e = some .typescript ∨
      e ∈ unlisted := by
  constructor
  · intro h
    unfold ofExtension? at h
    split at h <;> first | decide | cases h
  · rintro (h | h | h)
    · unfold Language.ofExtension? at h
      split at h <;> first | rfl | cases h
    · unfold Language.ofExtension? at h
      split at h <;> first | rfl | cases h
    · simp only [unlisted, List.mem_cons, List.not_mem_nil, or_false] at h
      obtain rfl | rfl := h <;> rfl

namespace Language

theorem ofExtension?_unlisted {e : String} (h : e ∈ Grammar.unlisted) : ofExtension? e = none := by
  simp only [Grammar.unlisted, List.mem_cons, List.not_mem_nil, or_false] at h
  obtain rfl | rfl := h
  · rfl
  · rfl

theorem ofPath_eq_iff {path : String} {language : Language} (h : language ≠ .unknown) :
    ofPath path = language ↔ ofExtension? (Path.extension path) = some language := by
  unfold ofPath
  cases ofExtension? (Path.extension path) with
  | none => simpa using h.symm
  | some other => simp

end Language

theorem TreeBuilder.supports_iff (path : String) :
    supports path ↔ Language.ofPath path = .javascript ∨ Language.ofPath path = .typescript ∨
      Path.extension path ∈ Grammar.unlisted := by
  rw [supports, Grammar.ofPath?, Grammar.isSome_ofExtension?, Language.ofPath_eq_iff (by decide),
    Language.ofPath_eq_iff (by decide)]

namespace Entry
variable {root : List Entry} {l : Location} {f : SourceFile}

theorem mem_projectFiles (h : Proper root) : f ∈ projectFiles root ↔ ∃ l, Shows "" root l f := by
  obtain ⟨ps, hps, -, hmem⟩ := sources_inOrder h ""
  rw [projectFiles, ← hps]
  simp [hmem]

theorem Shows.path (h : Shows "" root l f) : f.path = l.path := by
  obtain ⟨-, -, s, -, rfl⟩ := h
  exact String.empty_append

theorem Shows.named (h : Proper root) (hf : Shows "" root l f) : l.Named := by
  obtain ⟨-, -, s, hs, -⟩ := hf
  exact hs.named h

theorem nodup_projectFiles (h : Proper root) : ((projectFiles root).map SourceFile.path).Nodup := by
  obtain ⟨ps, hps, hord, hmem⟩ := sources_inOrder h ""
  rw [projectFiles, ← hps, List.map_map, List.Nodup, List.pairwise_map]
  refine hord.imp_of_mem fun {x y} hx hy hxy he => hxy.ne ?_
  have hf : Shows "" root x.1 x.2 := (hmem _ _).1 hx
  have hg : Shows "" root y.1 y.2 := (hmem _ _).1 hy
  exact Location.path_inj (hf.named h) (hg.named h) (hf.path.symm.trans (he.trans hg.path))

theorem FileAt.not_mem_projectFiles {bytes : List UInt8} (hl : FileAt root l bytes) (h : Proper root)
    (hunlisted : Path.extension l.path ∈ Grammar.unlisted) : l.path ∉ (projectFiles root).map SourceFile.path := by
  intro hmem
  obtain ⟨f, hf, hpath⟩ := List.mem_map.1 hmem
  obtain ⟨k, hk⟩ := (mem_projectFiles h).1 hf
  obtain rfl : k = l := Location.path_inj (hk.named h) (hl.named h) (hk.path.symm.trans hpath)
  have hsource : isSource k.name := hk.2.1
  rw [isSource, ← Location.extension_path (hl.named h), Language.ofExtension?_unlisted hunlisted] at hsource
  cases hsource

theorem FileAt.mem_projectFiles {t : List Char} (hl : FileAt root l (Text.Utf8.encode t)) (h : Proper root)
    (hd : ∀ d ∈ l.directories, d ∉ excluded) (hgrammar : TreeBuilder.supports l.path)
    (hlisted : Path.extension l.path ∉ Grammar.unlisted) :
    ⟨l.path, String.ofList (Text.normalizeBreaks t)⟩ ∈ projectFiles root := by
  refine (Entry.mem_projectFiles h).2 ⟨l, hd, ?_, t, hl, by rw [String.empty_append]⟩
  rw [isSource, ← Location.extension_path (hl.named h)]
  obtain hs | hs | hs := (Grammar.isSome_ofExtension? _).1 hgrammar
  · rw [hs]
    rfl
  · rw [hs]
    rfl
  · exact absurd hs hlisted

end Entry

namespace Run
variable {σ : Type} {c : Collaborators σ} {b : TreeBuilder} {root : List Entry}

theorem Reported.map_analyzeFile {files : List SourceFile} {reports : List FileReport}
    (h : List.Forall₂ (Reported c) files reports)
    (hsupports : ∀ path s, ((c.supports path).run s).1 = .ok (TreeBuilder.supports path))
    (hbuild : ∀ text path s, ((c.build text path).run s).1 = b.parse text path) :
    reports = files.map (CodeAudit.analyzeFile b) := by
  induction h with
  | nil => rfl
  | cons hreport _ ih =>
    rw [List.map_cons, hreport.of_answers (hsupports _) (hbuild _ _), ih]
    rfl

/-- There is a grammar for the files in JavaScript, for those in TypeScript and for those with an unlisted extension. Of
the files of a project for which there is a grammar, those with an unlisted extension are not read and all others are;
and a completed run holds what the rules report on all files that are read. -/
theorem analyze_understood (hroot : Entry.Proper root) :
    (∀ path, TreeBuilder.supports path ↔ Language.ofPath path = .javascript ∨ Language.ofPath path = .typescript ∨
      Path.extension path ∈ Grammar.unlisted) ∧
    (∀ l t, Entry.FileAt root l (Text.Utf8.encode t) → (∀ d ∈ l.directories, d ∉ Entry.excluded) →
      TreeBuilder.supports l.path →
        (Path.extension l.path ∈ Grammar.unlisted → l.path ∉ (projectFiles root).map SourceFile.path) ∧
        (Path.extension l.path ∉ Grammar.unlisted →
          ⟨l.path, String.ofList (Text.normalizeBreaks t)⟩ ∈ projectFiles root)) ∧
    ∀ (c : Collaborators σ) (b : TreeBuilder) (project : String) (s : σ) (r : RunResult),
      (∀ path s, ((c.supports path).run s).1 = .ok (TreeBuilder.supports path)) →
      (∀ text path s, ((c.build text path).run s).1 = b.parse text path) →
      ((analyze c (projectFiles root) project).run s).1 = .ok r → r.status = .completed →
        ∃ found, Holds ((projectFiles root).map (CodeAudit.analyzeFile b)) found r := by
  refine ⟨TreeBuilder.supports_iff, fun l t ht hd hl =>
    ⟨ht.not_mem_projectFiles hroot, ht.mem_projectFiles hroot hd hl⟩,
    fun c b project s r hsupports hbuild hr hstatus => ?_⟩
  obtain ⟨reports, found, hreports, -, hholds⟩ := analyze_completed (Entry.nodup_projectFiles hroot) hr hstatus
  rw [Reported.map_analyzeFile hreports hsupports hbuild] at hholds
  exact ⟨found, hholds⟩

def withModule : List Entry := [.file "m.mjs" [120], .directory "lib" [.file "a.TSX" [120]]]

theorem proper_withModule : Entry.Proper withModule := by
  refine ⟨by decide, by simp [withModule, Entry.name, Entry.IsName], fun d entries he => ?_⟩
  simp only [withModule, List.mem_cons, Entry.directory.injEq, reduceCtorEq, List.not_mem_nil, or_false, false_or] at he
  obtain ⟨rfl, rfl⟩ := he
  exact ⟨by decide, by simp [Entry.name, Entry.IsName], by simp⟩

theorem projectFiles_withModule : projectFiles withModule = [⟨"lib/a.TSX", "x"⟩] := by
  have hread : Entry.readFile "lib/" (.file "a.TSX" [120]) = some ⟨"lib/a.TSX", "x"⟩ := by decide +kernel
  have hpassed : Entry.readFile "" (.file "m.mjs" [120]) = none := by decide +kernel
  simp [projectFiles, withModule, Entry.sources, Entry.filesIn, Entry.directoriesIn, Entry.excluded, hread, hpassed]

theorem analyze_understood_module :
    let b : TreeBuilder := ⟨fun _ => some fun _ => .ok (.tree ⟨"program", true, none, 0, 1, []⟩)⟩
    let c : Collaborators Unit := {
      build := fun text path => return b.parse text path
      model := none
      languages := []
      score := fun fs a => return Report.of fs a
      save := none
      progress := fun _ _ _ => return .ok () }
    Entry.Proper withModule ∧ TreeBuilder.supports "m.mjs" ∧
      "m.mjs" ∉ (projectFiles withModule).map SourceFile.path ∧ ⟨"lib/a.TSX", "x"⟩ ∈ projectFiles withModule ∧
      ∃ r, ((analyze c (projectFiles withModule) "p").run ()).1 = .ok r ∧ r.status = .completed ∧
        r.rules = ((projectFiles withModule).map (CodeAudit.analyzeFile b)).flatMap FileReport.findings := by
  intro b c
  obtain ⟨-, hread, hrun⟩ := @analyze_understood Unit withModule proper_withModule
  have hm : TreeBuilder.supports "m.mjs" := by decide +kernel
  obtain ⟨hmodule, -⟩ := hread (.file "m.mjs") ['x'] List.mem_cons_self (by simp [Location.directories]) hm
  obtain ⟨-, hcomponent⟩ := hread (.within "lib" (.file "a.TSX")) ['x']
    ⟨_, List.mem_cons_of_mem _ List.mem_cons_self, List.mem_cons_self⟩ (by decide) (by decide +kernel)
  have hreliable : Reliable c := ⟨fun _ _ _ _ => rfl, fun _ _ _ => rfl, fun _ h => by cases h⟩
  have hreturned {α : Type} (a : α) (s : Unit) : ((return a : StateM Unit α).run s).1 = a := rfl
  have hbuild (text path : String) (s : Unit) : ((c.build text path).run s).1 = b.parse text path :=
    hreturned (b.parse text path) s
  have hsupports (path : String) (s : Unit) : ((c.supports path).run s).1 = .ok (TreeBuilder.supports path) :=
    hreturned (Except.ok (TreeBuilder.supports path)) s
  have hmoderate : ∀ f ∈ projectFiles withModule, ∀ s root, ((c.build f.text f.path).run s).1 = .ok (some root) →
      (Parsed.of f.path f.text root).Measurable := by
    intro f hf s root hroot
    rw [projectFiles_withModule, List.mem_singleton] at hf
    subst hf
    have htsx : Grammar.ofPath? "lib/a.TSX" = some .tsx := by decide +kernel
    rw [hbuild] at hroot
    delta TreeBuilder.parse at hroot
    rw [htsx] at hroot
    cases hroot
    exact Parsed.Moderate.measurable ⟨by decide +kernel, by decide +kernel⟩
  have halone : unaided c = c := rfl
  have hleads := leads_unaided hreliable (fun path s => ⟨_, hsupports path s⟩) hmoderate "p"
  rw [halone] at hleads
  obtain ⟨r, hr, hstatic, -⟩ := analyze_of_leads hleads (fun _ _ _ _ => rfl) ()
  obtain ⟨found, hholds⟩ := hrun c b "p" () r hsupports hbuild hr hstatic.status
  exact ⟨proper_withModule, hm, hmodule (by decide +kernel), hcomponent (by decide +kernel), r, hr, hstatic.status,
    hholds.rules⟩

/-- A module is not read, though there is a grammar for it. -/
theorem analyze_not_understood :
    (¬∀ root, Entry.Proper root → ∀ l t, Entry.FileAt root l (Text.Utf8.encode t) →
      (∀ d ∈ l.directories, d ∉ Entry.excluded) → TreeBuilder.supports l.path →
        l.path ∈ (projectFiles root).map SourceFile.path) ∧
    ¬∀ path, TreeBuilder.supports path ↔ Language.ofPath path = .javascript ∨ Language.ofPath path = .typescript := by
  have hm : TreeBuilder.supports "m.mjs" := by decide +kernel
  refine ⟨fun h => ?_, fun h => absurd ((h "m.mjs").1 hm) (by decide +kernel)⟩
  have hmem := h withModule proper_withModule (.file "m.mjs") ['x'] List.mem_cons_self
    (by simp [Location.directories]) hm
  rw [projectFiles_withModule] at hmem
  simp [Location.path] at hmem

end Run
end CodeAudit
