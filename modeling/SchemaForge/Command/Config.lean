import SchemaForge.Files.Path
import SchemaForge.Value.Entries

/-!
# Configuration

Where migrations come from and where the module goes. An option comes from the command line, or
else from the environment, or else has its usual value.
-/

namespace SchemaForge

/-- The options of a run (section 10.3 of the specification). The last two have the same values in
every run of a command. -/
structure Config where
  /-- The directory of the project. -/
  projectDir : Path
  /-- The address of the sync server. -/
  serverUrl : Option String := none
  /-- The token that grants access to the server. -/
  token : Option String := none
  /-- The package that the module imports. -/
  importPath : String := "@triplit/db"
  /-- The name of the module's file. -/
  outputFilename : String := "schema.ts"

/-- An option that does not exist. -/
structure UnknownOption where
  /-- The name of the option. -/
  name : String

/-- The wording of the error. -/
def UnknownOption.message (e : UnknownOption) : String := "Unknown config option: " ++ e.name

namespace Config

/-- The directory that the module and the migrations are kept in. -/
def moduleDir (c : Config) : Path := c.projectDir.child "triplit"

/-- The directory of migrations. -/
def migrationsDir (c : Config) : Path := c.moduleDir.child "migrations"

/-- The file of the module. -/
def outputPath (c : Config) : Path := c.moduleDir ++ Path.ofText c.outputFilename

/-- The file that the module is written to: in a directory if one is given, and otherwise where the
module of the project is (`outputPath`). -/
def moduleFile (c : Config) : Option Path → Path
  | some directory => directory ++ Path.ofText c.outputFilename
  | none => c.outputPath

/-- The configuration with the option of a name set; none if there is no such option.
`Config.isSome_set?_iff` lists the names. -/
def set? (c : Config) (name value : String) : Option Config :=
  if name = "project_dir" then some { c with projectDir := .ofText value }
  else if name = "server_url" then some { c with serverUrl := some value }
  else if name = "token" then some { c with token := some value }
  else if name = "import_path" then some { c with importPath := value }
  else if name = "output_filename" then some { c with outputFilename := value }
  else none

/-- The variables of the environment that set options. -/
def optionVariables : List (String × String) :=
  [("SCHEMA_TOOLS_PROJECT_DIR", "project_dir"), ("TRIPLIT_DB_URL", "server_url"),
    ("TRIPLIT_SERVICE_TOKEN", "token")]

/-- The configuration with an option set from a variable, unless that is missing or empty; the
variable is one of `optionVariables`. -/
def setFrom (environment : List (String × String)) (c : Config) (v : String × String) : Config :=
  match Entries.get? v.1 environment with
  -- An empty variable counts as none, unlike an empty argument.
  | some value => if value.isEmpty then c else (c.set? v.2 value).getD c
  | none => c

/-- The configuration that an environment makes in a working directory, before the arguments of a
command are looked at. -/
def ofEnvironment (here : Path) (environment : List (String × String)) : Config :=
  optionVariables.foldl (setFrom environment) { projectDir := here }

/-- The configuration with options set by name, one after the other; an option without a value
stays, but its name has to be known too. -/
def override (c : Config) : List (String × Option String) → Except UnknownOption Config
  | [] => .ok c
  | (name, value) :: rest =>
    match c.set? name (value.getD "") with
    | none => .error ⟨name⟩
    | some changed => override (if value.isSome then changed else c) rest

end Config

end SchemaForge
