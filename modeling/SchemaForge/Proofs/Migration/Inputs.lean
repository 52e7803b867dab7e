import Mathlib
import SchemaForge.Migration.Local
import SchemaForge.Proofs.Files.Tree
import SchemaForge.Proofs.Migration.Order

/-!
# Which files are given, and not how

Migrations are read from files and from directories of files (section 6.2 of the specification). An
input has a place in the tree, however its path is written (`FileTree.placeOf`); it stands for the
file there, or for the document files that are directly in the directory there (`StandsFor`). Each
file that some input stands for is read once (`collect_spec`), so two lists of inputs that stand for
the same files give the same migrations, each one once. Only their order may differ, and with
different versions that does not matter for the schema (`loadLocal_of_sameFiles`).
-/

namespace SchemaForge

variable {t : FileTree} {p : Path} {l : Location} {inputs inputs' : List Path}

/-! ## Places -/

namespace FileTree

/-- The path from the root to a `Location`. -/
def pathTo (l : Location) : Path := ⟨"/", l⟩

/-- The location that a path means, whether something is there or not: double dots are taken away
with the names in front of them. -/
def placeOf (t : FileTree) (p : Path) : Location := (t.herePath.resolve p).names

/-- The function `fileNames` lists the names of the files that are directly in a directory. -/
theorem mem_fileNames (h : t.locate p = .ok l) {name : String} :
    name ∈ t.fileNames p ↔ l ++ [name] ∈ Entries.keys t.files := by
  rw [fileNames, h]
  dsimp only
  rw [(List.mergeSort_perm _ _).mem_iff, List.mem_filterMap, Entries.keys, List.mem_map]
  refine exists_congr fun f => and_congr_right fun _ => ?_
  -- A file is directly in the directory if its location goes on by one name.
  constructor
  · intro hname
    split_ifs at hname with hf
    obtain ⟨rest, hrest⟩ := List.isPrefixOf_iff_prefix.mp hf.2
    have hlength := hf.1
    rw [← hrest, List.length_append, Nat.add_left_cancel_iff] at hlength
    obtain ⟨last, rfl⟩ := List.length_eq_one_iff.mp hlength
    rw [← hrest, List.getLast?_concat] at hname
    rw [← hrest, Option.some.inj hname]
  · intro hname
    rw [hname, List.length_append, List.length_singleton, List.getLast?_concat, if_pos]
    exact ⟨rfl, List.isPrefixOf_iff_prefix.mpr (List.prefix_append l [name])⟩

end FileTree

open FileTree (pathTo)

/-! ## Inputs -/

/-- After `eraseDups` every item is there once. -/
theorem nodup_eraseDups {α : Type} [DecidableEq α] (xs : List α) : xs.eraseDups.Nodup := by
  match xs with
  | [] => exact List.nodup_nil
  | x :: xs =>
    rw [List.eraseDups_cons, List.nodup_cons, List.mem_eraseDups, List.mem_filter]
    exact ⟨fun h => by simp at h, nodup_eraseDups _⟩
termination_by xs.length
decreasing_by exact Nat.lt_succ_of_le (List.length_filter_le _ _)

namespace Document

/-- An input that can be used: there is something at its place, and the path to it can be
followed. -/
structure IsInput (t : FileTree) (p : Path) : Prop where
  /-- The path can name something. -/
  isUsable : p.isUsable = true
  /-- So can the path to its place. -/
  isUsablePlace : (pathTo (t.placeOf p)).isUsable = true
  /-- That path leads there. -/
  locate : t.locate (pathTo (t.placeOf p)) = .ok (t.placeOf p)
  /-- There is something. -/
  found : t.find (t.placeOf p) ≠ .nothing

/-- The files that an input stands for: the file at its place, or the document files directly in the
directory there. -/
inductive StandsFor (t : FileTree) (p : Path) : Location → Prop
  /-- The file at its place. -/
  | file {content : ByteArray} (h : t.find (t.placeOf p) = .file content) :
      StandsFor t p (t.placeOf p)
  /-- A document directly in the directory at its place. -/
  | entry {name : String} (h : t.find (t.placeOf p) = .directory)
      (hfile : t.placeOf p ++ [name] ∈ Entries.keys t.files)
      (hsuffix : (pathTo (t.placeOf p ++ [name])).suffix ∈ suffixes) :
      StandsFor t p (t.placeOf p ++ [name])

/-- An input that is a file stands for that file only, whatever its suffix is. -/
theorem standsFor_iff_of_file {content : ByteArray} (h : t.find (t.placeOf p) = .file content) :
    StandsFor t p l ↔ l = t.placeOf p := by
  constructor
  · intro hl
    cases hl with
    | file => rfl
    | entry hdirectory => cases h.symm.trans hdirectory
  · rintro rfl
    exact .file h

/-- An input that is a directory stands for the files directly in it that have one of the
`suffixes`. -/
theorem standsFor_iff_of_directory (h : t.find (t.placeOf p) = .directory) :
    StandsFor t p l ↔ ∃ name, t.placeOf p ++ [name] = l ∧
      l ∈ Entries.keys t.files ∧ (pathTo l).suffix ∈ suffixes := by
  constructor
  · intro hl
    cases hl with
    | file hfile => cases h.symm.trans hfile
    | @entry name _ hfile hsuffix => exact ⟨name, rfl, hfile, hsuffix⟩
  · rintro ⟨name, rfl, hfile, hsuffix⟩
    exact .entry h hfile hsuffix

/-- The function `pathsOf` gives for an input that can be used the paths of exactly the files that
it stands for. -/
theorem pathsOf_spec (h : IsInput t p) :
    ∃ paths, pathsOf t p = .ok paths ∧
      ∀ q, q ∈ paths ↔ ∃ l, StandsFor t p l ∧ q = pathTo l := by
  have hlook : t.look (t.herePath.resolve p) = .ok (t.find (t.placeOf p)) := by
    show t.look (pathTo (t.placeOf p)) = _
    rw [FileTree.look, h.isUsablePlace, h.locate]
    rfl
  rw [pathsOf, h.isUsable, if_neg (by exact Bool.false_ne_true)]
  show ∃ paths, (t.look (t.herePath.resolve p) >>= _) = .ok paths ∧ _
  rw [hlook, Outcome.ok_bind]
  -- A file is named by the place itself, a directory by the names of those of its files that have a
  -- suffix of migrations.
  cases hfound : t.find (t.placeOf p) with
  | nothing => exact absurd hfound h.found
  | file content =>
    refine ⟨_, rfl, fun q => ?_⟩
    simp only [List.mem_singleton, standsFor_iff_of_file hfound, exists_eq_left]
    exact Iff.rfl
  | directory =>
    refine ⟨_, rfl, fun q => ?_⟩
    simp only [List.mem_filter, List.mem_map, standsFor_iff_of_directory hfound]
    constructor
    · rintro ⟨⟨name, hname, rfl⟩, hsuffix⟩
      have hfile := (FileTree.mem_fileNames h.locate).mp hname
      exact ⟨_, ⟨name, rfl, hfile, List.contains_iff_mem.mp hsuffix⟩, rfl⟩
    · rintro ⟨l, ⟨name, rfl, hfile, hsuffix⟩, rfl⟩
      exact ⟨⟨name, (FileTree.mem_fileNames h.locate).mpr hfile, rfl⟩,
        List.contains_iff_mem.mpr hsuffix⟩

/-- The function `collect` gives for inputs that can be used the paths of exactly the files that
these stand for, each of them once. -/
theorem collect_spec (h : ∀ p ∈ inputs, IsInput t p) :
    ∃ paths, collect t inputs = .ok paths ∧ paths.Nodup ∧
      ∀ q, q ∈ paths ↔ ∃ p ∈ inputs, ∃ l, StandsFor t p l ∧ q = pathTo l := by
  -- The paths of one input after the other, before those that repeat are taken away.
  have hall : ∃ pathss, inputs.mapM (pathsOf t) = .ok pathss ∧
      ∀ q, q ∈ pathss.flatten ↔ ∃ p ∈ inputs, ∃ l, StandsFor t p l ∧ q = pathTo l := by
    induction inputs with
    | nil => exact ⟨[], rfl, by simp⟩
    | cons p rest ih =>
      obtain ⟨paths, hpaths, hmem⟩ := pathsOf_spec (h p List.mem_cons_self)
      obtain ⟨pathss, hpathss, hmem'⟩ := ih fun q hq => h q (List.mem_cons_of_mem p hq)
      refine ⟨paths :: pathss, ?_, fun q => ?_⟩
      · rw [List.mapM_cons, hpaths, hpathss]
        rfl
      · rw [List.flatten_cons, List.mem_append, hmem, hmem', List.exists_mem_cons_iff]
  obtain ⟨pathss, hpathss, hmem⟩ := hall
  refine ⟨pathss.flatten.eraseDups, ?_, nodup_eraseDups _, fun q => ?_⟩
  · rw [collect, hpathss]
    rfl
  · rw [List.mem_eraseDups, hmem]

end Document

namespace Migration

open Document (IsInput StandsFor)

variable {files : List Location} {records : Location → List Value}

/-- The loader `loadLocal` gives the migrations in the files that inputs stand for, file by file, in
some order of the files. -/
theorem loadLocal_perm (hinputs : ∀ p ∈ inputs, IsInput t p) (hnodup : files.Nodup)
    (hfiles : ∀ l, l ∈ files ↔ ∃ p ∈ inputs, StandsFor t p l)
    (hload : ∀ l ∈ files, loadFile t (pathTo l) = .ok (records l)) :
    ∃ ms, loadLocal t inputs = .ok ms ∧ ms.Perm (files.flatMap records) := by
  obtain ⟨paths, hcollect, hpaths, hmem⟩ := Document.collect_spec hinputs
  have hmem : ∀ q, q ∈ paths ↔ ∃ l ∈ files, pathTo l = q := by
    intro q
    rw [hmem]
    constructor
    · rintro ⟨p, hp, l, hl, rfl⟩
      exact ⟨l, (hfiles l).mpr ⟨p, hp, hl⟩, rfl⟩
    · rintro ⟨l, hl, rfl⟩
      obtain ⟨p, hp, hfor⟩ := (hfiles l).mp hl
      exact ⟨p, hp, l, hfor, rfl⟩
  -- Both lists have no duplicates and the same members.
  have hperm : paths.Perm (files.map pathTo) := by
    refine (List.perm_ext_iff_of_nodup hpaths ?_).mpr fun q => by rw [hmem, List.mem_map]
    exact hnodup.map fun l l' h => congrArg Path.names h
  have hloads : paths.mapM (loadFile t) = .ok (paths.map fun q => records q.names) := by
    refine Outcome.mapM_eq_ok fun q hq => ?_
    obtain ⟨l, hl, rfl⟩ := (hmem q).mp hq
    exact hload l hl
  refine ⟨(paths.map fun q => records q.names).flatten, ?_, ?_⟩
  · rw [loadLocal, hcollect]
    show (paths.mapM (loadFile t) >>= fun ms => pure ms.flatten) = _
    rw [hloads]
    rfl
  · have hflat : (files.map pathTo).flatMap (fun q => records q.names) = files.flatMap records :=
      List.flatMap_map ..
    rw [← List.flatMap_def, ← hflat]
    exact hperm.flatMap_right _

/-- Migrations that are listed in another order lead to the same schema, or fail alike, if their
versions are different. -/
theorem resolve_eq_of_perm {ms ms' : List Value} (hversions : ∀ m ∈ ms, ∃ n, versionOf m = .ok n)
    (hdistinct : ms.Pairwise fun m m' => versionOf m ≠ versionOf m') (hperm : ms'.Perm ms) :
    resolve (.list ms') = resolve (.list ms) := by
  have hreplay : replay ms' = replay ms := by
    rw [replay, replay, inOrder_of_perm hversions hdistinct hperm]
  cases ms with
  | nil => rw [hperm.eq_nil]
  | cons m ms =>
    cases ms' with
    | nil => exact absurd hperm.symm.eq_nil (List.cons_ne_nil m ms)
    | cons m' ms' => exact hreplay

/-- It does not matter how the files with migrations are given. Two lists of inputs that stand for
the same files give the migrations in these, each one once; and if all have different versions, the
migrations lead to the same schema, or fail alike. -/
theorem loadLocal_of_sameFiles {t : FileTree} {inputs inputs' : List Path} {files : List Location}
    {records : Location → List Value} (hinputs : ∀ p ∈ inputs, IsInput t p)
    (hinputs' : ∀ p ∈ inputs', IsInput t p) (hnodup : files.Nodup)
    (hfiles : ∀ l, l ∈ files ↔ ∃ p ∈ inputs, StandsFor t p l)
    (hfiles' : ∀ l, l ∈ files ↔ ∃ p ∈ inputs', StandsFor t p l)
    (hload : ∀ l ∈ files, loadFile t (pathTo l) = .ok (records l))
    (hversions : ∀ m ∈ files.flatMap records, ∃ n, versionOf m = .ok n)
    (hdistinct : (files.flatMap records).Pairwise fun m m' => versionOf m ≠ versionOf m') :
    ∃ ms ms', loadLocal t inputs = .ok ms ∧ loadLocal t inputs' = .ok ms' ∧
      ms.Perm (files.flatMap records) ∧ ms'.Perm (files.flatMap records) ∧
      (files.flatMap records).Nodup ∧ resolve (.list ms) = resolve (.list ms') := by
  obtain ⟨ms, hms, hperm⟩ := loadLocal_perm hinputs hnodup hfiles hload
  obtain ⟨ms', hms', hperm'⟩ := loadLocal_perm hinputs' hnodup hfiles' hload
  have hdifferent : (files.flatMap records).Nodup :=
    hdistinct.imp fun hne heq => hne (congrArg versionOf heq)
  refine ⟨ms, ms', hms, hms', hperm, hperm', hdifferent, ?_⟩
  rw [resolve_eq_of_perm hversions hdistinct hperm,
    resolve_eq_of_perm hversions hdistinct hperm']

/-! ## A directory with two files -/

/-- The locations of the two files in `twoFiles`. -/
def twoPlaces : List Location := [["m", "1.json"], ["m", "2.json"]]

/-- A tree with one directory `m`, and two files of the given contents in it. -/
def twoFiles (first second : ByteArray) : FileTree where
  files := [(["m", "1.json"], first), (["m", "2.json"], second)]
  directories := [["m"]]
  here := []

variable {first second : ByteArray}

/-- The directory is an input that stands for both files, however its path is written. -/
theorem isInput_directory (hp : p.isUsable = true)
    (h : (twoFiles first second).placeOf p = ["m"]) :
    Document.IsInput (twoFiles first second) p ∧
      ∀ l, Document.StandsFor (twoFiles first second) p l ↔ l ∈ twoPlaces := by
  have hfound : (twoFiles first second).find ((twoFiles first second).placeOf p) = .directory := by
    rw [h]
    rfl
  refine ⟨⟨hp, by rw [h]; decide, by rw [h]; rfl, by rw [hfound]; exact nofun⟩, fun l => ?_⟩
  rw [Document.standsFor_iff_of_directory hfound, h]
  constructor
  · rintro ⟨_, -, hfile, -⟩
    exact hfile
  · intro hl
    simp only [twoPlaces, List.mem_cons, List.not_mem_nil, or_false] at hl
    rcases hl with rfl | rfl
    · exact ⟨"1.json", rfl, List.mem_cons_self, by decide⟩
    · exact ⟨"2.json", rfl, List.mem_cons_of_mem _ List.mem_cons_self, by decide⟩

/-- In `twoFiles` the second file is an input that stands for itself, at every path that leads to
its location. -/
theorem isInput_second (hp : p.isUsable = true)
    (h : (twoFiles first second).placeOf p = ["m", "2.json"]) :
    Document.IsInput (twoFiles first second) p ∧
      ∀ l, Document.StandsFor (twoFiles first second) p l → l ∈ twoPlaces := by
  have hfound : (twoFiles first second).find ((twoFiles first second).placeOf p)
      = .file second := by
    rw [h]
    rfl
  refine ⟨⟨hp, by rw [h]; decide, by rw [h]; rfl, by rw [hfound]; exact nofun⟩, fun l hl => ?_⟩
  rw [(Document.standsFor_iff_of_file hfound).mp hl, h]
  exact List.mem_cons_of_mem _ List.mem_cons_self

/-- A migration of a version and no steps. -/
def bareMigration (version : String) : Value := .record [("version", .str version)]

/-- The migrations that are in the file at each of the `twoPlaces`, one in each. -/
def twoRecords (l : Location) : List Value :=
  if l = ["m", "1.json"] then [bareMigration "1"] else [bareMigration "2"]

/-- The text of the first file: the migration of version 1. -/
def firstText : String := "\x7b\"version\": \"1\"\x7d"

/-- The text of the second file: the migration of version 2. -/
def secondText : String := "\x7b\"version\": \"2\"\x7d"

/-- A file whose text parses to `bareMigration` is loaded as the list of this migration. -/
theorem loadFile_bare {text version : String} (hread : t.read p = .ok text.toUTF8)
    (hparse : Document.parse p.suffix (Text.unifyLineEndings text.toList)
      = .ok (bareMigration version)) :
    loadFile t p = .ok [bareMigration version] := by
  have htext : t.readText p = .ok (Text.unifyLineEndings text.toList) := by
    rw [FileTree.readText, hread, Outcome.ok_bind, FileTree.fromUTF8?_toUTF8]
    rfl
  have hfound : Outcome.seenAs DocumentCause.unreadable (.ok (Text.unifyLineEndings text.toList))
      = .ok (Text.unifyLineEndings text.toList) := rfl
  rw [loadFile, Document.load, htext, hfound, Outcome.ok_bind, hparse]
  rfl

/-- Reading the first of the `twoFiles` gives its content. -/
theorem read_first : (twoFiles first second).read (pathTo ["m", "1.json"]) = .ok first := rfl

/-- Reading the second of the `twoFiles` gives its content. -/
theorem read_second : (twoFiles first second).read (pathTo ["m", "2.json"]) = .ok second := rfl

/-- Loading each of the `twoFiles` gives the one migration in it. -/
theorem loadFile_twoFiles : ∀ l ∈ twoPlaces,
    loadFile (twoFiles firstText.toUTF8 secondText.toUTF8) (pathTo l) = .ok (twoRecords l) := by
  have hparse : Document.parse (pathTo ["m", "1.json"]).suffix
      (Text.unifyLineEndings firstText.toList) = .ok (bareMigration "1") := by
    cbv
  have hparse' : Document.parse (pathTo ["m", "2.json"]).suffix
      (Text.unifyLineEndings secondText.toList) = .ok (bareMigration "2") := by
    cbv
  exact List.forall_mem_cons.mpr ⟨loadFile_bare read_first hparse,
    List.forall_mem_singleton.mpr (loadFile_bare read_second hparse')⟩

/-- The directory stands for its two files, and so do the directory and one of the files, written in
different ways. -/
theorem loadLocal_of_sameFiles_twoFiles :
    ∃ ms ms', loadLocal (twoFiles firstText.toUTF8 secondText.toUTF8) [Path.ofText "m"] = .ok ms ∧
      loadLocal (twoFiles firstText.toUTF8 secondText.toUTF8)
        [Path.ofText "./m//2.json", Path.ofText "/m", Path.ofText "m/../m/2.json"] = .ok ms' ∧
      ms.Perm [bareMigration "1", bareMigration "2"] ∧
      ms'.Perm [bareMigration "1", bareMigration "2"] ∧
      [bareMigration "1", bareMigration "2"].Nodup ∧ resolve (.list ms) = resolve (.list ms') := by
  obtain ⟨hm, hmfor⟩ := isInput_directory (p := .ofText "m") (by decide) rfl
  obtain ⟨hm', hmfor'⟩ := isInput_directory (p := .ofText "/m") (by decide) rfl
  obtain ⟨hf, hffor⟩ := isInput_second (p := .ofText "./m//2.json") (by decide) rfl
  obtain ⟨hf', hffor'⟩ := isInput_second (p := .ofText "m/../m/2.json") (by decide) rfl
  have hrecords : twoPlaces.flatMap twoRecords = [bareMigration "1", bareMigration "2"] := rfl
  rw [← hrecords]
  refine loadLocal_of_sameFiles (List.forall_mem_singleton.mpr hm)
    (List.forall_mem_cons.mpr ⟨hf, List.forall_mem_cons.mpr ⟨hm',
      List.forall_mem_singleton.mpr hf'⟩⟩) (by decide) (fun l => ?_) (fun l => ?_)
    loadFile_twoFiles ?_ ?_
  · simp only [List.mem_singleton, exists_eq_left]
    exact (hmfor l).symm
  -- The inputs overlap: the second file is named twice, and it is in the directory as well.
  · constructor
    · intro hl
      exact ⟨_, List.mem_cons_of_mem _ List.mem_cons_self, (hmfor' l).mpr hl⟩
    · rintro ⟨p, hp, hl⟩
      simp only [List.mem_cons, List.not_mem_nil, or_false] at hp
      rcases hp with rfl | rfl | rfl
      · exact hffor l hl
      · exact (hmfor' l).mp hl
      · exact hffor' l hl
  · rw [hrecords]
    exact List.forall_mem_cons.mpr ⟨⟨1, rfl⟩, List.forall_mem_singleton.mpr ⟨2, rfl⟩⟩
  · have hfirst : versionOf (bareMigration "1") = .ok 1 := rfl
    have hsecond : versionOf (bareMigration "2") = .ok 2 := rfl
    rw [hrecords, List.pairwise_pair, hfirst, hsecond]
    exact fun h => by cases h

end Migration

end SchemaForge
