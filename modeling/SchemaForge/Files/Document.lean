import SchemaForge.Files.Tree
import SchemaForge.Json.Reader
import SchemaForge.Yaml.Document

/-!
# Documents in files

A document (section 10.5 of the specification) is written as YAML in a file whose suffix says so,
and as JSON in any other. Its root has to be a mapping or a list.
-/

namespace SchemaForge

/-- Why a file holds no document. `DocumentCause.wording` words it. -/
inductive DocumentCause where
  /-- The file cannot be read. -/
  | unreadable (error : FileError)
  /-- The text is not YAML. -/
  | notYaml (cause : Yaml.Cause)
  /-- The text is not JSON, for a reason. -/
  | notJson (reason : String)
  /-- The root is neither a mapping nor a list. -/
  | badRoot

/-- The wording of a cause. -/
def DocumentCause.wording : DocumentCause → String
  | .unreadable e => "Failed to read file: " ++ e.message
  | .notYaml cause => "Invalid YAML: " ++ cause.message
  | .notJson reason => "Invalid JSON: " ++ reason
  | .badRoot => "Document root must be a mapping or a list"

/-- An error in the document of a file. -/
structure DocumentError where
  /-- What is wrong. -/
  cause : DocumentCause
  /-- The file. -/
  path : Path

/-- What the user is told of a bad document. -/
def DocumentError.report (e : DocumentError) : Report :=
  { wording := e.cause.wording, document := some e.path.text }

namespace Document

/-- The suffixes of YAML files. -/
def yamlSuffixes : List String := [".yaml", ".yml"]

/-- The suffixes of files that hold documents. -/
def suffixes : List String := ".json" :: yamlSuffixes

/-- The value of a text, in the format that a suffix says: `Yaml.read` or `Json.read`. -/
def parse (suffix : String) (text : List Char) : Outcome DocumentCause Value :=
  if yamlSuffixes.contains suffix then Outcome.seenAs .notYaml (Yaml.read text)
  else match Json.read text with
    | .ok v => .ok v
    | .error e => refuse (.notJson (e.message text))

/-- Whether a value may be the root of a document. -/
def isRoot (v : Value) : Bool :=
  match v.content with
  | .mapping _ => true
  | .list _ => true
  | _ => false

/-- The document in a file: its text is read and parsed, and the root has to be a mapping or a list
(`isRoot`). -/
def load (t : FileTree) (p : Path) : Outcome DocumentError Value :=
  Outcome.seenAs (⟨·, p⟩) do
    let text ← Outcome.seenAs .unreadable (t.readText p)
    let v ← parse p.suffix text
    if isRoot v then return v else refuse .badRoot

/-- The files that one input names: itself, or the documents directly in it, in the order of their
names. Names that double dots take away have to be usable all the same. -/
def pathsOf (t : FileTree) (input : Path) : Outcome FileError (List Path) := do
  if !input.isUsable then throw (.broken .badValue)
  -- From here on the path has no double dots, and equal files have equal paths.
  let p := t.herePath.resolve input
  match ← t.look p with
  | .nothing => refuse (.absent input)
  | .file _ => return [p]
  | .directory => return ((t.fileNames p).map p.child).filter fun q => suffixes.contains q.suffix

/-- The files that inputs name (`pathsOf`), each one once, at its first place. -/
def collect (t : FileTree) (inputs : List Path) : Outcome FileError (List Path) := do
  return (← inputs.mapM (pathsOf t)).flatten.eraseDups

end Document

end SchemaForge
