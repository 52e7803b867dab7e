import SchemaForge.Files.Document
import SchemaForge.Migration.Error

/-!
# Migrations in files

A document holds one migration or a list of them (section 6.2 of the specification); each is a
mapping with a version.
-/

namespace SchemaForge

/-- Why migrations cannot be read from files: the three ways in which `loadLocal` is refused. -/
inductive LocalError where
  /-- A file is not there. -/
  | file (error : FileError)
  /-- A file holds no document. -/
  | document (error : DocumentError)
  /-- A document holds something else than migrations. -/
  | migration (error : MigrationError)

/-- What the user is told of files that hold no migrations. -/
def LocalError.message : LocalError → String
  | .file e => e.message
  | .document e => e.report.message
  | .migration e => e.report.message

namespace Migration

/-- Whether an item of a document is a migration: a mapping with a version, whatever else it
holds. -/
def isRecord (v : Value) : Bool := (v.entries?).any (Entries.has (.str "version"))

/-- The items of a document; what is not a list is the one item of itself. -/
def recordsOf (document : Value) : List Value :=
  match document.unroll with
  | .list items => items
  | _ => [document]

/-- The migrations in a file. If one item is none, then the file has none. -/
def loadFile (t : FileTree) (p : Path) : Outcome LocalError (List Value) := do
  let records := recordsOf (← Outcome.seenAs .document (Document.load t p))
  if records.all isRecord then return records
  else refuse (.migration ⟨.notMigration, none, some p.text⟩)

/-- The migrations in files and in directories of files, in the order in which `Document.collect`
finds the files. -/
def loadLocal (t : FileTree) (inputs : List Path) : Outcome LocalError (List Value) := do
  let paths ← Outcome.seenAs .file (Document.collect t inputs)
  return (← paths.mapM (loadFile t)).flatten

end Migration

end SchemaForge
