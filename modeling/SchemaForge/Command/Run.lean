import SchemaForge.Command.Arguments
import SchemaForge.Command.Config
import SchemaForge.Command.Formatting
import SchemaForge.Migration.Local
import SchemaForge.Migration.Replay
import SchemaForge.Migration.Status
import SchemaForge.Schema.Writing
import SchemaForge.Source.Module

/-!
# Commands

`codegen` writes the module of the schema that the migrations lead to, and `resolve` prints that
schema as JSON. Migrations come from the files that the arguments name, or else from a sync server,
or else from the directory of migrations in the project.

A command is a function of the `World` that it runs in, and `Ending` is all that it leaves behind.
It writes no file before the module is complete, and no file but the module.
-/

namespace SchemaForge

/-- What a command runs in. All that a command depends on is a field here, so that a run is a
function. -/
structure World where
  /-- The files. -/
  tree : FileTree
  /-- The variables of the environment. -/
  environment : List (String × String)
  /-- What carries requests to the server. -/
  transport : Transport
  /-- The programs that are installed. -/
  programs : Programs

/-- Why a command fails, as far as that is foreseen; `CommandError.message` is what the user is
told. -/
inductive CommandError where
  /-- A directory cannot be looked for, or the module cannot be saved. -/
  | file (error : FileError)
  /-- Migrations cannot be read from files. -/
  | files (error : LocalError)
  /-- The server does not tell its status. -/
  | status (error : StatusError)
  /-- The migrations lead to no schema. -/
  | migration (error : MigrationError)
  /-- The schema cannot be written as a module. -/
  | module (error : Unencodable)
  /-- There is nowhere to take migrations from; the path is the directory that would do. -/
  | noSource (directory : Path)

/-- What the user is told of a failed command. -/
def CommandError.message : CommandError → String
  | .file e => e.message
  | .files e => e.message
  | .status e => e.report.message
  | .migration e => e.report.message
  | .module e => e.report.message
  | .noSource p =>
    "No migration source: pass --migrations, --server, or create " ++ p.text

/-- What a command leaves behind. -/
structure Ending where
  /-- The exit code, or the fault that the command broke down with. -/
  code : Except Fault Nat
  /-- What it has printed. -/
  output : String := ""
  /-- What it has complained about. -/
  complaint : String := ""
  /-- What it has asked of the server. -/
  requests : List Request := []
  /-- The files. -/
  tree : FileTree

/-- The ending of a command that fails. -/
def Ending.ofFailure (requests : List Request) (tree : FileTree) : Failure CommandError → Ending
  | .refused e => { code := .ok 1, complaint := "Error: " ++ e.message ++ "\n", requests, tree }
  | .broken fault => { code := .error fault, requests, tree }

/-! ## Where migrations come from -/

/-- Where migrations come from. -/
inductive MigrationSource where
  /-- From files and from directories of files. -/
  | files (inputs : List Path)
  /-- From a server: those that its status says are to be used. -/
  | server (server : Server)

namespace MigrationSource

/-- The first source that there is: the inputs, the server, the directory of the project. -/
def choose (t : FileTree) (c : Config) (inputs : List Path) :
    Outcome CommandError MigrationSource :=
  if !inputs.isEmpty then .ok (.files inputs)
  else match c.serverUrl.filter (fun url => !url.isEmpty) with
    | some url => .ok (.server { url, token := c.token })
    | none => do
      if ← Outcome.seenAs .file (t.isDirectory c.migrationsDir) then
        return .files [c.migrationsDir]
      else refuse (.noSource c.migrationsDir)

/-- What is asked of a server. -/
def requests : MigrationSource → List Request
  | .files _ => []
  | .server s => [s.request]

/-- The migrations of a source: those in files, or those that a server lists and that are to be
used. -/
def migrations (w : World) : MigrationSource → Outcome CommandError (List Value)
  | .files inputs => Outcome.seenAs .files (Migration.loadLocal w.tree inputs)
  | .server s => do
    let status ← Outcome.seenAs .status (s.fetchStatus w.transport)
    selectApplicable status

/-- The schema that the migrations of a source lead to, by `Migration.resolve`. -/
def schema (w : World) (s : MigrationSource) : Outcome CommandError (Option Schema) := do
  Outcome.seenAs .migration (Migration.resolve (.list (← s.migrations w)))

end MigrationSource

/-! ## The commands -/

/-- A command. -/
inductive Command where
  /-- Writes the module of the schema. -/
  | codegen
  /-- Prints the schema as JSON. -/
  | resolve
  deriving DecidableEq, Repr

/-- What a command does: it may change files, and it gives what it prints. -/
abbrev CommandAction := ExceptT (Failure CommandError) (StateM FileTree) String

/-- The path that an option gives, if it is given; it has to have a value then. -/
def Command.Setting.path? : Command.Setting → Except Fault (Option Path)
  | .unset => .ok none
  | .blank => .error .wrongKind
  | .value text => .ok (some (Path.ofText text))

/-- The configuration with the options that arguments set. `Config.withArguments_eq_override`
relates it to `Config.override`. -/
def Config.withArguments (c : Config) (a : Command.Arguments) : Except Fault Config := do
  -- Only this option is turned into a path, and breaks down without a value.
  let projectDir ← a.projectDir.path?
  return { c with
    projectDir := projectDir.getD c.projectDir
    serverUrl := a.server.over c.serverUrl
    token := a.token.over c.token }

/-- Writes a module to a file, with the directories on the way, and tells where it was saved. -/
def saveModule (file : Path) (module : String) : CommandAction := fun t =>
  let (result, t) := (FileTree.save file module.toUTF8).run t
  (Outcome.seenAs .file (result.map fun _ => "New schema has been saved at " ++ file.text ++ "\n"),
    t)

/-- The schema as indented JSON; without a schema it is `null`. -/
def schemaText : Option Schema → Except Fault String
  | none => .ok "null\n"
  | some s => do return (← Json.write ⟨some 2, true⟩ (← s.toValue)) ++ "\n"

namespace Command

/-- All commands. -/
def all : List Command := [.codegen, .resolve]

/-- The name of a command. -/
def name : Command → String
  | .codegen => "codegen"
  | .resolve => "resolve"

/-- What a command does, for the user. -/
def summary : Command → String
  | .codegen => "Generate schema.ts from the current migrations"
  | .resolve => "Print the resolved schema as JSON"

/-- The options of a command. -/
def flags : Command → List (String × Flag)
  | .codegen => outputFlags
  | .resolve => commonFlags

/-- How to use a command. -/
def usage (c : Command) : String :=
  "usage: " ++ c.name ++ String.join (c.flags.map fun f => " [" ++ f.1 ++ "]") ++ "\n"

/-- The module of a schema, laid out as the arguments ask for: by `Programs.format`, unless they say
that it is to be left alone. -/
def moduleOf (w : World) (c : Config) (a : Arguments) (s : Option Schema) :
    Outcome CommandError String := do
  let options : ModuleOptions := { importPath := c.importPath }
  -- Only the path of the import is configured; the other names are the usual ones.
  let module ← Outcome.seenAs .module (encodeModule options s).result
  return if a.noFormat then module else w.programs.format "typescript" module

/-- What a command does with migrations from a source. Only the last step of `codegen` touches a
file. -/
def perform (w : World) (c : Config) (a : Arguments) (source : MigrationSource) :
    Command → CommandAction
  | .codegen => do
    let module ← ExceptT.mk (pure (source.schema w >>= moduleOf w c a))
    -- The directory is looked at behind the module, though nothing depends on it before.
    let directory ← ExceptT.mk (pure (a.outputDir.path?.mapError .broken))
    saveModule (c.moduleFile directory) module
  | .resolve => do
    let schema ← ExceptT.mk (pure (source.schema w))
    ExceptT.mk (pure ((schemaText schema).mapError .broken))

/-- Runs a command with a configuration: a source is chosen, and then `perform` does the rest. -/
def runWith (w : World) (c : Config) (a : Arguments) (command : Command) : Ending :=
  match MigrationSource.choose w.tree c (a.migrations.map Path.ofText) with
  | .error failure => .ofFailure [] w.tree failure
  | .ok source =>
    match (command.perform w c a source).run w.tree with
    | (.ok output, tree) => { code := .ok 0, output, requests := source.requests, tree }
    | (.error failure, tree) => .ofFailure source.requests tree failure

/-- Runs a command whose options are known, with the configuration that the environment and the
arguments make. -/
def start (w : World) (a : Arguments) (command : Command) : Ending :=
  match (Config.ofEnvironment w.tree.herePath w.environment).withArguments a with
  | .ok c => command.runWith w c a
  | .error fault => .ofFailure [] w.tree (.broken fault)

/-- Runs a command with its arguments. A command line that is wrong ends with code 2, and help with
code 0, before anything is done. -/
def run (w : World) (command : Command) (words : List String) : Ending :=
  match Arguments.parse command.flags words with
  | .ok a => command.start w a
  | .error .wrong => { code := .ok 2, complaint := command.usage, tree := w.tree }
  | .error .help => { code := .ok 0, output := command.usage, tree := w.tree }

/-! ## The command line -/

/-- What the program can do. -/
def help : String :=
  "\nSchema tools CLI.\n\nUsage:\n    python -m schema_tools <command> [options]\n\n"
    ++ "Commands:\n"
    ++ String.join (all.map fun c => "    " ++ Text.padRight 12 c.name ++ c.summary ++ "\n")
    ++ "\nExamples:\n"
    ++ "    python -m schema_tools codegen --migrations triplit/migrations\n"
    ++ "    python -m schema_tools codegen --server http://localhost:6543 --token $TOKEN\n"
    ++ "    python -m schema_tools resolve --migrations triplit/migrations\n\n"
    ++ "Available commands:\n"
    ++ String.join (all.map fun c => "  " ++ Text.padRight 13 c.name ++ c.summary ++ "\n")
    ++ "\nUse '<command> --help' for command-specific options.\n"

/-- What the user is told of a command that there is not. -/
def unknown (word : String) : String :=
  "Unknown command: " ++ word ++ "\nAvailable commands: " ++ Text.join ", " (all.map name) ++ "\n"

/-- Runs the program on a command line: its first word is the name of a command (section 6.5 of the
specification). -/
def runLine (w : World) : List String → Ending
  | [] => { code := .ok 0, output := help, tree := w.tree }
  | word :: words =>
    -- Help of the program itself does not need a command.
    if word = "-h" ∨ word = "--help" then { code := .ok 0, output := help, tree := w.tree }
    else match all.find? fun c => c.name = word with
      | some command => command.run w words
      | none => { code := .ok 1, output := unknown word, tree := w.tree }

end Command

end SchemaForge
