import CodeAudit.Proofs.Source.Walk
import CodeAudit.Proofs.Text.Lines

set_option autoImplicit false

namespace CodeAudit

namespace Location

def names : Location → List String
  | .file n => [n]
  | .within d l => d :: l.names

/-- All names along the path are names of entries. -/
def Named (l : Location) : Prop := ∀ n ∈ l.names, Entry.IsName n

theorem names_inj {l k : Location} (h : l.names = k.names) : l = k := by
  have hne (l : Location) : l.names ≠ [] := by cases l <;> simp [names]
  induction l generalizing k with
  | file n =>
    cases k with
    | file m =>
      cases h
      rfl
    | within e k => exact absurd (List.cons.inj h).2.symm (hne k)
  | within d l ih =>
    cases k with
    | file m => exact absurd (List.cons.inj h).2 (hne l)
    | within e k =>
      obtain ⟨rfl, hlk⟩ := List.cons.inj h
      rw [ih hlk]

theorem name_mem_names (l : Location) : l.name ∈ l.names := by
  induction l with
  | file n => exact List.mem_singleton_self n
  | within d l ih => exact List.mem_cons_of_mem d ih

theorem getLast?_names (l : Location) : l.names.getLast? = some l.name := by
  induction l with
  | file n => rfl
  | within d l ih => rw [names, List.getLast?_cons, ih, Option.getD_some, name]

theorem splitOn_path {l : Location} (h : l.Named) : l.path.toList.splitOn '/' = l.names.map String.toList := by
  induction l with
  | file n => exact List.splitOn_eq_singleton (h n (List.mem_singleton_self n)).2.2
  | within d l ih =>
    have hd : d.toList.splitOn '/' = [d.toList] := List.splitOn_eq_singleton (h d List.mem_cons_self).2.2
    have hl := ih fun n hn => h n (List.mem_cons_of_mem d hn)
    have hp : (Location.within d l).path.toList = d.toList ++ '/' :: l.path.toList := by
      simp [path, String.toList_append]
    rw [hp, List.splitOn_append_cons_self, hd, hl]
    rfl

theorem path_inj {l k : Location} (hl : l.Named) (hk : k.Named) (h : l.path = k.path) : l = k := by
  refine names_inj (List.map_injective_iff.2 (fun _ _ => String.toList_inj.1) ?_)
  rw [← splitOn_path hl, ← splitOn_path hk, h]

theorem nameOf_path {l : Location} (h : l.Named) : Path.nameOf l.path.toList = l.name.toList := by
  have hparts : Path.parts l.path.toList = l.names.map String.toList := by
    rw [Path.parts, splitOn_path h, List.filter_eq_self]
    intro p hp
    obtain ⟨n, hn, rfl⟩ := List.mem_map.1 hp
    obtain ⟨hempty, hpoint, -⟩ := h n hn
    have h₁ : n.toList ≠ [] := fun he => hempty (String.toList_inj.1 he)
    have h₂ : n.toList ≠ ['.'] := fun he => hpoint (String.toList_inj.1 he)
    simp [h₁, h₂]
  rw [Path.nameOf, hparts, List.getLast?_map, getLast?_names]
  rfl

theorem extension_path {l : Location} (h : l.Named) : Path.extension l.path = Path.extension l.name := by
  have hname : (Location.file l.name).Named := fun n hn => by
    rw [List.mem_singleton.1 hn]
    exact h _ l.name_mem_names
  rw [Path.extension, Path.extension, Path.suffix, Path.suffix, nameOf_path h]
  exact congrArg _ (congrArg _ (congrArg _ (nameOf_path hname).symm))

end Location

theorem InOrder.unique {p : Location → SourceFile → Prop} {fs gs : List SourceFile} (hf : InOrder p fs)
    (hg : InOrder p gs) : fs = gs := by
  obtain ⟨ps, rfl, hps, hp⟩ := hf
  obtain ⟨qs, rfl, hqs, hq⟩ := hg
  have hnodup {xs : List (Location × SourceFile)} (h : xs.Pairwise fun x y => x.1.Before y.1) : xs.Nodup :=
    h.imp fun hxy he => hxy.ne (congrArg Prod.fst he)
  have hperm : ps.Perm qs := (List.perm_ext_iff_of_nodup (hnodup hps) (hnodup hqs)).2 fun x => by
    rw [hp x.1 x.2, hq x.1 x.2]
  rw [hperm.eq_of_pairwise (fun x y _ _ hxy hyx => (hxy.asymm hyx).elim) hps hqs]

namespace Entry
variable {es es' : List Entry} {l : Location} {bytes : List UInt8}

theorem FileAt.named (h : Proper es) (hf : FileAt es l bytes) : l.Named := by
  induction l generalizing es with
  | file n =>
    intro m hm
    rw [List.mem_singleton.1 hm]
    exact h.names _ hf
  | within d l ih =>
    obtain ⟨entries, he, hf⟩ := hf
    exact List.forall_mem_cons.2 ⟨h.names _ he, ih (h.subdirectory he) hf⟩

/-- The same tree, with the entries of its directories in any order. -/
inductive Shuffled : List Entry → List Entry → Prop where
  | perm {es es' : List Entry} (h : es.Perm es') : Shuffled es es'
  | inside {es es' : List Entry} (d : String) (before after : List Entry) (h : Shuffled es es') :
      Shuffled (before ++ .directory d es :: after) (before ++ .directory d es' :: after)
  | trans {es₁ es₂ es₃ : List Entry} (h : Shuffled es₁ es₂) (h' : Shuffled es₂ es₃) : Shuffled es₁ es₃

theorem Shuffled.fileAt_iff (h : Shuffled es es') : FileAt es l bytes ↔ FileAt es' l bytes := by
  induction h generalizing l with
  | perm h =>
    cases l with
    | file n => exact h.mem_iff
    | within d l => exact exists_congr fun entries => and_congr_left fun _ => h.mem_iff
  | @inside es es' d before after _ ih =>
    cases l with
    | file n => simp [FileAt]
    | within e l =>
      simp only [FileAt, List.mem_append, List.mem_cons, Entry.directory.injEq]
      constructor
      · rintro ⟨entries, he | ⟨rfl, rfl⟩ | he, hf⟩
        · exact ⟨entries, .inl he, hf⟩
        · exact ⟨es', .inr (.inl ⟨rfl, rfl⟩), ih.1 hf⟩
        · exact ⟨entries, .inr (.inr he), hf⟩
      · rintro ⟨entries, he | ⟨rfl, rfl⟩ | he, hf⟩
        · exact ⟨entries, .inl he, hf⟩
        · exact ⟨es, .inr (.inl ⟨rfl, rfl⟩), ih.2 hf⟩
        · exact ⟨entries, .inr (.inr he), hf⟩
  | trans _ _ ih ih' => exact ih.trans ih'

theorem Shuffled.proper (h : Shuffled es es') (hes : Proper es) : Proper es' := by
  induction h with
  | perm h =>
    exact ⟨(h.map name).nodup_iff.1 hes.nodup, fun e he => hes.names e (h.mem_iff.2 he),
      fun d entries he => hes.subdirectory (h.mem_iff.2 he)⟩
  | @inside es es' d before after _ ih =>
    have hnames : (before ++ .directory d es' :: after).map name = (before ++ .directory d es :: after).map name := by
      simp [name]
    refine ⟨by rw [hnames]; exact hes.nodup, fun e he => ?_, fun d' entries he => ?_⟩
    · have hmem : e.name ∈ (before ++ .directory d es :: after).map name := hnames ▸ List.mem_map_of_mem he
      obtain ⟨e', he', hn⟩ := List.mem_map.1 hmem
      exact hn ▸ hes.names e' he'
    · obtain he | he := List.mem_append.1 he
      · exact hes.subdirectory (List.mem_append_left _ he)
      · obtain he | he := List.mem_cons.1 he
        · cases he
          exact ih (hes.subdirectory (List.mem_append_right _ List.mem_cons_self))
        · exact hes.subdirectory (List.mem_append_right _ (List.mem_cons_of_mem _ he))
  | trans _ _ ih ih' => exact ih' (ih hes)

theorem sources_congr (h : Proper es) (h' : Proper es')
    (hf : ∀ l bytes, FileAt es l bytes ↔ FileAt es' l bytes) (above : String) :
    sources above es = sources above es' := by
  refine (sources_inOrder h above).unique ((sources_inOrder h' above).congr fun l f => ?_)
  simp only [Shows, hf]

end Entry

theorem SourceFile.size_eq (f : SourceFile) : f.size = (Text.Utf8.encode f.text.toList).length := by
  rw [Text.Utf8.length_encode, String.ofList_toList]
  rfl

/-- The source files of a project: one for each file with the name of a source, in UTF-8 and with no excluded
directory above it, in the order of their places; and in whatever order the directories are listed. -/
theorem projectFiles_listed {root : List Entry} (h : Entry.Proper root) :
    (∃ ps : List (Location × SourceFile), ps.map Prod.snd = projectFiles root ∧
      ps.Pairwise (fun x y => x.1.Before y.1) ∧
      (∀ l f, (l, f) ∈ ps ↔ (∀ d ∈ l.directories, d ∉ Entry.excluded) ∧
        (Language.ofExtension? (Path.extension l.name)).isSome ∧
        ∃ s, Entry.FileAt root l (Text.Utf8.encode s) ∧
          f = ⟨l.path, String.ofList (Text.normalizeBreaks s)⟩) ∧
      ∀ l f, (l, f) ∈ ps → Language.ofExtension? (Path.extension l.name) = some f.language ∧
        f.size = (Text.Utf8.encode f.text.toList).length ∧ f.lineCount = f.text.toList.count '\n' + 1) ∧
    ((projectFiles root).map SourceFile.path).Nodup ∧
    ∀ root', Entry.Shuffled root root' → projectFiles root' = projectFiles root := by
  obtain ⟨ps, hps, hord, hmem⟩ := Entry.sources_inOrder h ""
  have hshows {l : Location} {f : SourceFile} (hx : (l, f) ∈ ps) : l.Named ∧ f.path = l.path ∧
      Entry.isSource l.name := by
    obtain ⟨-, hsource, s, hs, rfl⟩ := (hmem l f).1 hx
    exact ⟨hs.named h, String.empty_append, hsource⟩
  refine ⟨⟨ps, hps, hord, fun l f => ?_, fun l f hx => ⟨?_, f.size_eq, Text.lineCount_eq _⟩⟩, ?_, fun root' hr => ?_⟩
  · rw [hmem, Entry.Shows, Entry.isSource, String.empty_append]
  · obtain ⟨hnamed, hpath, hsource⟩ := hshows hx
    obtain ⟨language, hlanguage⟩ := Option.isSome_iff_exists.1 hsource
    rw [SourceFile.language, Language.ofPath, hpath, Location.extension_path hnamed, hlanguage]
    rfl
  · rw [projectFiles, ← hps, List.map_map, List.Nodup, List.pairwise_map]
    refine hord.imp_of_mem fun {x y} hx hy hxy he => hxy.ne ?_
    obtain ⟨hnamed, hpath, -⟩ := hshows (l := x.1) (f := x.2) hx
    obtain ⟨hnamed', hpath', -⟩ := hshows (l := y.1) (f := y.2) hy
    exact Location.path_inj hnamed hnamed' (hpath.symm.trans (he.trans hpath'))
  · exact (Entry.sources_congr h (hr.proper h) (fun _ _ => hr.fileAt_iff) "").symm

def scattered : List Entry := [.directory "lib" [.file "m.JS" [120, 13, 10, 121], .file "bad.py" [255]],
  .directory "build" [.file "out.js" [120]], .file "notes.md" []]

theorem projectFiles_listed_scattered :
    Entry.Proper scattered ∧ ⟨"lib/m.JS", "x\ny"⟩ ∈ projectFiles scattered ∧
      projectFiles scattered.reverse = projectFiles scattered := by
  have h : Entry.Proper scattered := by
    refine ⟨by decide, by simp [scattered, Entry.name, Entry.IsName], fun d entries he => ?_⟩
    simp only [scattered, List.mem_cons, Entry.directory.injEq, reduceCtorEq, List.not_mem_nil, or_false] at he
    obtain ⟨rfl, rfl⟩ | ⟨rfl, rfl⟩ := he
    · exact ⟨by decide, by simp [Entry.name, Entry.IsName], by simp⟩
    · exact ⟨by decide, by simp [Entry.name, Entry.IsName], by simp⟩
  obtain ⟨⟨ps, hps, -, hmem, -⟩, -, hshuffled⟩ := projectFiles_listed h
  refine ⟨h, ?_, hshuffled _ (.perm (List.reverse_perm _).symm)⟩
  rw [← hps]
  refine List.mem_map_of_mem (f := Prod.snd) ((hmem (.within "lib" (.file "m.JS")) ⟨"lib/m.JS", "x\ny"⟩).2 ?_)
  exact ⟨by decide, by decide, ['x', '\r', '\n', 'y'],
    ⟨_, List.mem_cons_self, List.mem_cons_self⟩, rfl⟩

end CodeAudit
