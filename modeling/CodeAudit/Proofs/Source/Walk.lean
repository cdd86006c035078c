import CodeAudit.Proofs.Text.Utf8
import CodeAudit.Source.Project
import Mathlib.Data.List.Sort

/-!
The walk over a directory tree. It meets the files in the order of their places: a directory's own files by
name, then its subdirectories by name, and so on in each of them.
-/
set_option autoImplicit false

namespace CodeAudit

inductive Location where
  | file (name : String)
  | within (directory : String) (l : Location)
  deriving DecidableEq, Repr

namespace Location

def name : Location → String
  | .file n => n
  | .within _ l => l.name

def directories : Location → List String
  | .file _ => []
  | .within d l => d :: l.directories

def path : Location → String
  | .file n => n
  | .within d l => d ++ "/" ++ l.path

/-- A directory's own files come first, by name, then those of its subdirectories, by name. -/
def Before : Location → Location → Prop
  | .file n, .file m => n < m
  | .file _, .within _ _ => True
  | .within _ _, .file _ => False
  | .within d l, .within e k => d < e ∨ d = e ∧ l.Before k

theorem Before.asymm {l k : Location} (h : l.Before k) (h' : k.Before l) : False := by
  induction l generalizing k with
  | file n =>
    cases k with
    | file m => exact String.lt_irrefl n (String.lt_trans h h')
    | within e k => exact h'
  | within d l ih =>
    cases k with
    | file m => exact h
    | within e k =>
      obtain h | ⟨rfl, h⟩ := h
      · obtain h' | ⟨rfl, -⟩ := h'
        · exact String.lt_irrefl d (String.lt_trans h h')
        · exact String.lt_irrefl _ h
      · obtain h' | ⟨-, h'⟩ := h'
        · exact String.lt_irrefl d h'
        · exact ih h h'

theorem Before.ne {l k : Location} (h : l.Before k) : l ≠ k := by
  rintro rfl
  exact h.asymm h

end Location

namespace Entry

/-- A file with these bytes stands at this place. -/
def FileAt : List Entry → Location → List UInt8 → Prop
  | es, .file n, bytes => .file n bytes ∈ es
  | es, .within d l, bytes => ∃ entries, .directory d entries ∈ es ∧ FileAt entries l bytes

def IsName (n : String) : Prop := n ≠ "" ∧ n ≠ "." ∧ '/' ∉ n.toList

/-- A tree that a file system can hold: every entry has a name, and no directory two entries of one name. -/
inductive Proper : List Entry → Prop where
  | intro {es : List Entry} (nodup : (es.map name).Nodup) (names : ∀ e ∈ es, IsName e.name)
    (below : ∀ d entries, .directory d entries ∈ es → Proper entries) : Proper es

theorem Proper.nodup {es : List Entry} (h : Proper es) : (es.map name).Nodup := by
  cases h with
  | intro h _ _ => exact h

theorem Proper.names {es : List Entry} (h : Proper es) : ∀ e ∈ es, IsName e.name := by
  cases h with
  | intro _ h _ => exact h

theorem Proper.subdirectory {es entries : List Entry} {d : String} (h : Proper es) (he : .directory d entries ∈ es) :
    Proper entries := by
  cases h with
  | intro _ _ h => exact h d entries he

/-- The file at this place is one that is read, and this is what is read of it. -/
def Shows (above : String) (es : List Entry) (l : Location) (f : SourceFile) : Prop :=
  (∀ d ∈ l.directories, d ∉ excluded) ∧ isSource l.name ∧ ∃ s, FileAt es l (Text.Utf8.encode s) ∧
    f = ⟨above ++ l.path, String.ofList (Text.normalizeBreaks s)⟩

theorem readFile_eq_some {above n : String} {bytes : List UInt8} {f : SourceFile} :
    readFile above (.file n bytes) = some f ↔ isSource n ∧ ∃ s, bytes = Text.Utf8.encode s ∧
      f = ⟨above ++ n, String.ofList (Text.normalizeBreaks s)⟩ := by
  rw [readFile, Option.ite_none_right_eq_some, readText, Option.map_map, Option.map_eq_some_iff]
  exact and_congr_right fun _ => exists_congr fun s => by rw [Text.Utf8.decode?_eq_some_iff, eq_comm (b := f)]; rfl

theorem shows_file {above n : String} {es : List Entry} {f : SourceFile} :
    Shows above es (.file n) f ↔ ∃ bytes, .file n bytes ∈ es ∧ readFile above (.file n bytes) = some f := by
  simp only [Shows, readFile_eq_some, Location.directories, Location.name, Location.path, FileAt]
  constructor
  · rintro ⟨-, hn, s, hs, rfl⟩
    exact ⟨_, hs, hn, s, rfl, rfl⟩
  · rintro ⟨_, hs, hn, s, rfl, rfl⟩
    exact ⟨by simp, hn, s, hs, rfl⟩

theorem shows_within {above d : String} {es : List Entry} {l : Location} {f : SourceFile} :
    Shows above es (.within d l) f ↔ d ∉ excluded ∧
      ∃ entries, .directory d entries ∈ es ∧ Shows (above ++ d ++ "/") entries l f := by
  simp only [Shows, Location.directories, Location.name, Location.path, FileAt, List.forall_mem_cons,
    String.append_assoc]
  constructor
  · rintro ⟨⟨hd, hds⟩, hn, s, ⟨entries, he, hs⟩, rfl⟩
    exact ⟨hd, entries, he, hds, hn, s, hs, rfl⟩
  · rintro ⟨hd, entries, he, hds, hn, s, hs, rfl⟩
    exact ⟨⟨hd, hds⟩, hn, s, ⟨entries, he, hs⟩, rfl⟩

theorem mem_filesIn {above n : String} {es : List Entry} {fs : List SourceFile} :
    (n, fs) ∈ filesIn above es ↔ ∃ bytes, .file n bytes ∈ es ∧ fs = (readFile above (.file n bytes)).toList := by
  induction es with
  | nil => simp [filesIn]
  | cons e es ih =>
    cases e with
    | file m bytes =>
      simp only [filesIn, List.mem_cons, ih, Entry.file.injEq, Prod.mk.injEq]
      grind
    | directory d entries => simp [filesIn, ih]

theorem mem_directoriesIn {above d : String} {es : List Entry} {fs : List SourceFile} :
    (d, fs) ∈ directoriesIn above es ↔ d ∉ excluded ∧
      ∃ entries, .directory d entries ∈ es ∧ fs = sources (above ++ d ++ "/") entries := by
  induction es with
  | nil => simp [directoriesIn]
  | cons e es ih =>
    cases e with
    | file n bytes => simp [directoriesIn, ih]
    | directory e entries =>
      rw [directoriesIn]
      split
      · simp only [List.mem_cons, ih, Entry.directory.injEq]
        grind
      · simp only [List.mem_cons, ih, Entry.directory.injEq, Prod.mk.injEq]
        grind

theorem names_filesIn (above : String) (es : List Entry) :
    ((filesIn above es).map Prod.fst).Sublist (es.map name) := by
  induction es with
  | nil => exact .slnil
  | cons e es ih =>
    cases e with
    | file n bytes => exact ih.cons_cons n
    | directory d entries => exact ih.cons d

theorem names_directoriesIn (above : String) (es : List Entry) :
    ((directoriesIn above es).map Prod.fst).Sublist (es.map name) := by
  induction es with
  | nil => simp [directoriesIn]
  | cons e es ih =>
    cases e with
    | file n bytes => simpa [directoriesIn, name] using ih.cons n
    | directory d entries =>
      rw [directoriesIn]
      split
      · exact ih.cons d
      · exact ih.cons_cons d

end Entry

theorem Entry.sorted_of_nodup {xs : List (String × List SourceFile)} (h : (xs.map Prod.fst).Nodup) :
    (xs.mergeSort before).Pairwise fun x y => x.1 < y.1 := by
  have hle : (xs.mergeSort before).Pairwise fun x y => before x y = true :=
    List.pairwise_mergeSort (fun _ _ _ => by simpa [before] using String.le_trans)
      (fun x y => by simpa [before] using String.le_total x.1 y.1) xs
  have hne : (xs.mergeSort before).Pairwise fun x y => x.1 ≠ y.1 :=
    List.pairwise_map.1 (((List.mergeSort_perm xs before).map Prod.fst).nodup_iff.2 h)
  refine hle.imp₂ (fun x y hxy hn => ?_) hne
  exact String.not_le.1 fun hyx => hn (String.le_antisymm (by simpa [before] using hxy) hyx)

/-- These are the files of the places that satisfy `p`, each once, in the order of their places. -/
def InOrder (p : Location → SourceFile → Prop) (fs : List SourceFile) : Prop :=
  ∃ ps : List (Location × SourceFile), ps.map Prod.snd = fs ∧ ps.Pairwise (fun x y => x.1.Before y.1) ∧
    ∀ l f, (l, f) ∈ ps ↔ p l f

namespace InOrder
variable {p q : Location → SourceFile → Prop} {fs gs : List SourceFile}

theorem congr (h : InOrder p fs) (hpq : ∀ l f, p l f ↔ q l f) : InOrder q fs := by
  obtain ⟨ps, rfl, hord, hmem⟩ := h
  exact ⟨ps, rfl, hord, fun l f => (hmem l f).trans (hpq l f)⟩

theorem append (hf : InOrder p fs) (hg : InOrder q gs) (h : ∀ l f k g, p l f → q k g → l.Before k) :
    InOrder (fun l f => p l f ∨ q l f) (fs ++ gs) := by
  obtain ⟨ps, rfl, hps, hp⟩ := hf
  obtain ⟨qs, rfl, hqs, hq⟩ := hg
  refine ⟨ps ++ qs, List.map_append, List.pairwise_append.2 ⟨hps, hqs, ?_⟩, fun l f => ?_⟩
  · exact fun x hx y hy => h x.1 x.2 y.1 y.2 ((hp _ _).1 hx) ((hq _ _).1 hy)
  · rw [List.mem_append, hp, hq]

theorem flatMap {α : Type} {xs : List α} {g : α → List SourceFile} {p : α → Location → SourceFile → Prop}
    (hx : ∀ x ∈ xs, InOrder (p x) (g x))
    (hord : xs.Pairwise fun x y => ∀ l f k g, p x l f → p y k g → l.Before k) :
    InOrder (fun l f => ∃ x ∈ xs, p x l f) (xs.flatMap g) := by
  induction xs with
  | nil => exact ⟨[], rfl, .nil, by simp⟩
  | cons x xs ih =>
    obtain ⟨hfirst, hrest⟩ := List.pairwise_cons.1 hord
    have hall := ih (fun y hy => hx y (List.mem_cons_of_mem _ hy)) hrest
    refine ((hx x List.mem_cons_self).append hall ?_).congr fun l f => by simp
    rintro l f k g hp ⟨y, hy, hq⟩
    exact hfirst y hy l f k g hp hq

theorem within (d : String) (h : InOrder p fs) : InOrder (fun l f => ∃ k, l = .within d k ∧ p k f) fs := by
  obtain ⟨ps, rfl, hord, hmem⟩ := h
  refine ⟨ps.map fun x => (.within d x.1, x.2), by simp, ?_, fun l f => ?_⟩
  · exact List.pairwise_map.2 (hord.imp fun hxy => .inr ⟨rfl, hxy⟩)
  · simp only [List.mem_map, Prod.exists, Prod.mk.injEq, hmem]
    constructor
    · rintro ⟨k, f, hk, rfl, rfl⟩
      exact ⟨k, rfl, hk⟩
    · rintro ⟨k, rfl, hk⟩
      exact ⟨k, f, hk, rfl, rfl⟩

theorem file (n : String) (o : Option SourceFile) : InOrder (fun l f => l = .file n ∧ f ∈ o.toList) o.toList := by
  cases o with
  | none => exact ⟨[], rfl, .nil, by simp⟩
  | some f => exact ⟨[(.file n, f)], rfl, List.pairwise_singleton _ _, by simp⟩

end InOrder

namespace Entry
variable {above : String} {es : List Entry}

theorem Proper.directory_inj (h : Proper es) {d : String} {entries others : List Entry}
    (he : .directory d entries ∈ es) (ho : .directory d others ∈ es) : entries = others :=
  (Entry.directory.inj (List.inj_on_of_nodup_map h.nodup he ho rfl)).2

theorem own_inOrder (h : Proper es) : InOrder (fun l f => ∃ n, l = .file n ∧ Shows above es l f)
    (((filesIn above es).mergeSort before).flatMap (·.2)) := by
  have hfiles : InOrder (fun l f => ∃ x ∈ (filesIn above es).mergeSort before, l = .file x.1 ∧ f ∈ x.2)
      (((filesIn above es).mergeSort before).flatMap (·.2)) := by
    refine InOrder.flatMap (p := fun x l f => l = .file x.1 ∧ f ∈ x.2) ?_
      ((sorted_of_nodup ((names_filesIn above es).nodup h.nodup)).imp ?_)
    · rintro ⟨n, fs⟩ hx
      obtain ⟨bytes, -, hfs⟩ := mem_filesIn.1 (List.mem_mergeSort.1 hx)
      dsimp only
      rw [hfs]
      exact .file n _
    · rintro x y hxy _ f _ g ⟨rfl, -⟩ ⟨rfl, -⟩
      exact hxy
  refine hfiles.congr fun l f => ?_
  simp only [List.mem_mergeSort, Prod.exists, mem_filesIn]
  constructor
  · rintro ⟨n, fs, ⟨bytes, he, hfs⟩, rfl, hf⟩
    rw [hfs, Option.mem_toList] at hf
    exact ⟨n, rfl, shows_file.2 ⟨bytes, he, hf⟩⟩
  · rintro ⟨n, rfl, hf⟩
    obtain ⟨bytes, he, hf⟩ := shows_file.1 hf
    exact ⟨n, _, ⟨bytes, he, rfl⟩, rfl, Option.mem_toList.2 hf⟩

theorem below_inOrder (h : Proper es) (ih : ∀ d entries, .directory d entries ∈ es →
      ∀ above, InOrder (Shows above entries) (sources above entries)) :
    InOrder (fun l f => ∃ d k, l = .within d k ∧ Shows above es l f)
      (((directoriesIn above es).mergeSort before).flatMap (·.2)) := by
  have hdirectories : InOrder
      (fun l f => ∃ x ∈ (directoriesIn above es).mergeSort before, ∃ k, l = .within x.1 k ∧ Shows above es l f)
      (((directoriesIn above es).mergeSort before).flatMap (·.2)) := by
    refine InOrder.flatMap (p := fun x l f => ∃ k, l = .within x.1 k ∧ Shows above es l f) ?_
      ((sorted_of_nodup ((names_directoriesIn above es).nodup h.nodup)).imp ?_)
    · rintro ⟨d, fs⟩ hx
      obtain ⟨hd, entries, he, hfs⟩ := mem_directoriesIn.1 (List.mem_mergeSort.1 hx)
      dsimp only
      rw [hfs]
      refine ((ih d entries he _).within d).congr fun l f => exists_congr fun k => and_congr_right ?_
      rintro rfl
      rw [shows_within]
      constructor
      · exact fun hf => ⟨hd, entries, he, hf⟩
      · rintro ⟨-, others, ho, hf⟩
        rwa [h.directory_inj he ho]
    · rintro x y hxy _ f _ g ⟨k, rfl, -⟩ ⟨k', rfl, -⟩
      exact .inl hxy
  refine hdirectories.congr fun l f => ?_
  simp only [List.mem_mergeSort, Prod.exists, mem_directoriesIn]
  constructor
  · rintro ⟨d, _, -, k, rfl, hf⟩
    exact ⟨d, k, rfl, hf⟩
  · rintro ⟨d, k, rfl, hf⟩
    obtain ⟨hd, entries, he, -⟩ := shows_within.1 hf
    exact ⟨d, _, ⟨hd, entries, he, rfl⟩, k, rfl, hf⟩

/-- What is read of a tree: each file that is read once, in the order of their places. -/
theorem sources_inOrder (h : Proper es) (above : String) : InOrder (Shows above es) (sources above es) := by
  induction h generalizing above with
  | @intro es hnodup hnames hbelow ih =>
    have h : Proper es := ⟨hnodup, hnames, hbelow⟩
    rw [sources]
    refine ((own_inOrder h).append (below_inOrder h ih) ?_).congr fun l f => ?_
    · rintro _ f _ g ⟨n, rfl, -⟩ ⟨d, k, rfl, -⟩
      exact trivial
    · cases l <;> simp

end Entry
end CodeAudit
