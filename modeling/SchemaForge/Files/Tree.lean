import SchemaForge.Files.Path
import SchemaForge.Report

/-!
# File trees

The files and directories that a program can see, and the directory that it works in. A `Location`
is where something is: the names on the way from the root. The root is always a directory.

A path is followed name by name, and every name but the last has to lead to a directory; a double
dot leads back to the directory above. There are no links. Names have 255 bytes at most, and paths
4095.
-/

namespace SchemaForge

/-- The names on the way from the root. -/
abbrev Location := List String

/-- Files, directories and the working directory. There are no links, so a `Location` has one way to
it. -/
structure FileTree where
  /-- The contents of the files. -/
  files : List (Location × ByteArray)
  /-- The directories other than the root. -/
  directories : List Location
  /-- The working directory. -/
  here : Location

/-- What stands in the way of a use of a path. -/
inductive Obstacle where
  /-- There is nothing there. -/
  | missing
  /-- There is something there already. -/
  | exists
  /-- A file stands where a directory is needed. -/
  | notDirectory
  /-- A directory stands where a file is needed. -/
  | isDirectory
  /-- A name or the whole path is too long. -/
  | nameTooLong
  deriving DecidableEq, Repr

/-- The number of an obstacle. -/
def Obstacle.number : Obstacle → Nat
  | .missing => 2
  | .exists => 17
  | .notDirectory => 20
  | .isDirectory => 21
  | .nameTooLong => 36

/-- The wording of an obstacle. -/
def Obstacle.wording : Obstacle → String
  | .missing => "No such file or directory"
  | .exists => "File exists"
  | .notDirectory => "Not a directory"
  | .isDirectory => "Is a directory"
  | .nameTooLong => "File name too long"

/-- An error in the use of a path, as the user is told it by `FileError.message`. -/
inductive FileError where
  /-- Something stands in the way. -/
  | obstacle (obstacle : Obstacle) (path : Path)
  /-- A path that was asked for leads nowhere. -/
  | absent (path : Path)
  deriving DecidableEq

/-- What stands in the way, in the general sense. -/
def FileError.kind : FileError → Obstacle
  | .obstacle o _ => o
  | .absent _ => .missing

/-- The message of an error. -/
def FileError.message : FileError → String
  | .obstacle o p =>
    "[Errno " ++ Number.padded 1 o.number ++ "] " ++ o.wording ++ ": " ++ Text.quoted p.text
  | .absent p => "Path '" ++ p.text ++ "' does not exist"

/-- What is at a location. -/
inductive Found where
  /-- A file with its content. -/
  | file (content : ByteArray)
  /-- A directory. -/
  | directory
  /-- Nothing. -/
  | nothing

namespace FileTree

/-- What is at a location. -/
def find (t : FileTree) (l : Location) : Found :=
  if l.isEmpty || t.directories.contains l then .directory
  else match Entries.get? l t.files with
    | some content => .file content
    | none => .nothing

/-- The location that names lead to from a location: a double dot goes back, and every other name
has to be reached through a directory. -/
def follow (t : FileTree) (l : Location) : List String → Except Obstacle Location
  | [] => .ok l
  | name :: rest =>
    match t.find l with
    | .directory =>
      -- At the root a double dot leads nowhere else.
      if name = ".." then follow t l.dropLast rest
      else if 255 < name.utf8ByteSize then .error .nameTooLong
      else follow t (l ++ [name]) rest
    | .file _ => .error .notDirectory
    | .nothing => .error .missing

/-- The location of a path, which may be one where nothing is yet; the path as a whole must not be
too long. -/
def locate (t : FileTree) (p : Path) : Except Obstacle Location :=
  if 4095 < p.text.utf8ByteSize then .error .nameTooLong
  else t.follow (if p.isAbsolute then [] else t.here) p.names

/-- The path of the working directory. -/
def herePath (t : FileTree) : Path := ⟨"/", t.here⟩

/-- What a path leads to. A path that cannot be followed leads to nothing, but what is too long may
not even be asked for. -/
def look (t : FileTree) (p : Path) : Outcome FileError Found :=
  if !p.isUsable then .ok .nothing
  else match t.locate p with
    | .ok l => .ok (t.find l)
    -- This obstacle alone is told to whoever only asks what is there.
    | .error .nameTooLong => refuse (.obstacle .nameTooLong p)
    | .error _ => .ok .nothing

/-- Whether a path leads to a directory. -/
def isDirectory (t : FileTree) (p : Path) : Outcome FileError Bool := do
  match ← t.look p with
  | .directory => return true
  | _ => return false

/-- Whether a path leads anywhere, be it to a file or to a directory. -/
def exists? (t : FileTree) (p : Path) : Outcome FileError Bool := do
  match ← t.look p with
  | .nothing => return false
  | _ => return true

/-- The names of the files of a directory, in the order of their characters. -/
def fileNames (t : FileTree) (p : Path) : List String :=
  match t.locate p with
  | .ok l =>
    let names := t.files.filterMap fun f =>
      if f.1.length = l.length + 1 ∧ l.isPrefixOf f.1 then f.1.getLast? else none
    names.mergeSort (· ≤ ·)
  | .error _ => []

end FileTree

/-- A use of files: it may change the tree and fail. -/
abbrev FileAction (α : Type) := ExceptT (Failure FileError) (StateM FileTree) α

namespace FileTree

/-- What is at a path, for use with it. Unlike for `look`, every obstacle on the way is an error,
and a path that can name nothing breaks the use down. -/
def access (t : FileTree) (p : Path) : Outcome FileError (Location × Found) :=
  if !p.isUsable then .error (.broken .badValue)
  else match t.locate p with
    | .ok l => .ok (l, t.find l)
    | .error o => refuse (.obstacle o p)

/-- The content of the file at a path, byte for byte. -/
def read (t : FileTree) (p : Path) : Outcome FileError ByteArray := do
  match ← t.access p with
  | (_, .file content) => return content
  | (_, .directory) => refuse (.obstacle .isDirectory p)
  | (_, .nothing) => refuse (.obstacle .missing p)

/-- The text of the file at a path. The file has to be UTF-8, and every line ending is read as one
line feed (`Text.unifyLineEndings`). -/
def readText (t : FileTree) (p : Path) : Outcome FileError (List Char) := do
  match String.fromUTF8? (← t.read p) with
  | some text => return Text.unifyLineEndings text.toList
  | none => .error (.broken .notText)

/-- The tree with a file that has a given content. -/
def putFile (t : FileTree) (l : Location) (content : ByteArray) : FileTree :=
  { t with files := Entries.put l content t.files }

/-- The tree with one more directory. -/
def putDirectory (t : FileTree) (l : Location) : FileTree :=
  { t with directories := t.directories ++ [l] }

/-- The tree with the file at a path written anew, whether or not there was one; its directory has
to be there. -/
def write (t : FileTree) (p : Path) (content : ByteArray) : Outcome FileError FileTree := do
  match ← t.access p with
  | (_, .directory) => refuse (.obstacle .isDirectory p)
  | (l, _) => return t.putFile l content

/-- The tree with a directory at a path where nothing is. -/
def makeDirectory (t : FileTree) (p : Path) : Outcome FileError FileTree := do
  match ← t.access p with
  | (l, .nothing) => return t.putDirectory l
  | _ => refuse (.obstacle .exists p)

/-- Makes a directory, and is content with one that is there. -/
def allowDirectory (p : Path) : FileAction Unit := do
  match (← get).makeDirectory p with
  | .ok t => set t
  | .error failure =>
    match failure with
    | .refused e =>
      match e.kind, (← get).isDirectory p with
      -- The directory above is missing, and whoever called this may make it first.
      | .missing, _ => throw failure
      | _, .ok true => return
      | _, _ => throw failure
    | .broken _ => throw failure

/-- Makes a directory and those that lead to it, and is content with what is there. `levels` bounds
the number of directories to make, and the names of the path are always enough. -/
def ensureDirectory : Nat → Path → FileAction Unit
  | 0, p => allowDirectory p
  | levels + 1, p => do
    match (← get).makeDirectory p with
    | .error (.refused e) =>
      if e.kind = .missing && !p.names.isEmpty then
        ensureDirectory levels p.parent
    -- Whatever else stands in the way shows again when the directory itself is made.
    | _ => pure ()
    allowDirectory p

/-- Writes the file at a path; directories that lead to it are made first, and stay if the file
cannot be written (`FileTree.save_cases`). -/
def save (p : Path) (content : ByteArray) : FileAction Unit := do
  ensureDirectory p.names.length p.parent
  match (← get).write p content with
  | .ok t => set t
  | .error failure => throw failure

end FileTree

end SchemaForge
