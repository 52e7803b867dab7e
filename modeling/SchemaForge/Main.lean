import SchemaForge.Command.Run

/-!
# The program

The command line runs on the files of the machine: those that the arguments may lead to are read
into a `FileTree` first, the command runs on that tree, and what it has changed there is written
back. There is no network and no formatter, so a server cannot be reached and the module stays as
it is generated.
-/

namespace SchemaForge.Program

/-- The variables of the environment that the program reads. -/
def readEnvironment : IO (List (String × String)) := do
  let values ← Config.optionVariables.mapM fun v => do return (← IO.getEnv v.1).map (v.1, ·)
  return values.filterMap id

/-- The paths that a command may use. -/
def pathsOf (here : Path) (environment : List (String × String)) : List String → List Path
  | [] => []
  | _ :: words =>
    match Command.Arguments.parse Command.outputFlags words with
    | .ok a =>
      match (Config.ofEnvironment here environment).withArguments a, a.outputDir.path? with
      | .ok c, .ok directory =>
        c.migrationsDir :: c.moduleFile directory :: a.migrations.map Path.ofText
      | _, _ => []
    | .error _ => []

/-- The locations that one passes on the way along a path. -/
def locationsOf (here p : Path) : List Location :=
  let names := (here ++ p).names
  (List.range (names.length + 1)).map fun k => Path.settle [] (names.take k)

/-- The text of a location. -/
def locationText (l : Location) : String := (Path.mk "/" l).text

/-- The tree with what the machine has at a location. -/
def readLocation (t : FileTree) (l : Location) : IO FileTree := do
  let path := (← IO.currentDir) / locationText l
  if !(← path.pathExists) then return t
  if ← path.isDir then return if l.isEmpty then t else t.putDirectory l
  return t.putFile l (← IO.FS.readBinFile path)

/-- The tree with what the machine has at a path; of a directory also what is directly in it. -/
def readPath (t : FileTree) (p : Path) : IO FileTree := do
  if !p.isUsable then return t
  let locations := locationsOf t.herePath p
  let t ← locations.foldlM readLocation t
  match t.look p, locations.getLast? with
  | .ok .directory, some l =>
    let entries ← ((← IO.currentDir) / locationText l).readDir
    entries.toList.foldlM (fun t e => readLocation t (l ++ [e.fileName])) t
  | _, _ => return t

/-- The files of the machine that a command line may use. -/
def readTree (environment : List (String × String)) (words : List String) : IO FileTree := do
  let here := (Path.ofText (← IO.currentDir).toString).names
  let t ← readPath ⟨[], [], here⟩ (Path.ofText "")
  (pathsOf t.herePath environment words).foldlM readPath t

/-- Makes the directories and writes the files that a tree has and another has not. -/
def writeChanges (before after : FileTree) : IO Unit := do
  for l in after.directories do
    if !before.directories.contains l then
      IO.FS.createDirAll (locationText l)
  for (l, content) in after.files do
    if (Entries.get? l before.files).all (·.data != content.data) then
      IO.FS.writeBinFile (locationText l) content

/-- Runs a command line. -/
def run (words : List String) : IO UInt32 := do
  let environment ← readEnvironment
  let tree ← readTree environment words
  let transport : Transport := fun _ => .unreachable "there is no network"
  let ending := Command.runLine ⟨tree, environment, transport, .absent⟩ words
  writeChanges tree ending.tree
  IO.print ending.output
  IO.eprint ending.complaint
  match ending.code with
  | .ok n => return n.toUInt32
  | .error _ =>
    IO.eprintln "Error: a value has a shape that was not foreseen"
    return 1

end SchemaForge.Program

/-- Runs the program and tells how it has ended. -/
def main (words : List String) : IO UInt32 := do
  try SchemaForge.Program.run words
  catch e =>
    IO.eprintln ("Error: " ++ toString e)
    return 1
