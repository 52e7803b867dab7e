import SchemaForge.Files.Tree
import SchemaForge.Source.Loading

/-!
# Modules in files

Reading a schema back from the file that its module was written to (section 6.4 of the
specification).
-/

namespace SchemaForge.Source

/-- Why a file holds no schema. -/
inductive FileCause where
  /-- The file cannot be read. -/
  | file (error : FileError)
  /-- The module cannot be read. -/
  | module (error : Error) (path : Path)

/-- What the user is told of a module that cannot be read: its error with the name of the file. -/
def moduleReport (e : Error) (path : Path) : Report :=
  { wording := e.report.message, document := some path.text }

/-- The schema in a file, as `load` reads its text; there is none if there is no file. An error of
the module is told with the file. -/
def loadFile (t : FileTree) (p : Path) : Outcome FileCause (Option Schema) := do
  if ← Outcome.seenAs .file (t.exists? p) then
    let text ← Outcome.seenAs .file (t.readText p)
    match load text with
    | .ok schema => return some schema
    | .error e => refuse (.module e p)
  else return none

end SchemaForge.Source
