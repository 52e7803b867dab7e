/-!
# Formatting

The module is passed through a formatter if one is installed: `prettier` itself, or `npx` that runs
it. Formatting is at best: where the formatter is missing or fails, the text stays as it is.
-/

namespace SchemaForge

/-- What becomes of a program that is run. Only a success gives a text. -/
inductive ProgramResult where
  /-- It succeeds and writes a text. -/
  | succeeded (output : String)
  /-- It fails with a number and writes a complaint. -/
  | failed (code : Int) (complaint : String)
  /-- It takes too long. -/
  | timedOut
  /-- It cannot be run, for a reason. -/
  | notStarted (reason : String)

/-- The programs that are installed: any two functions. The theorems hold for all of them. -/
structure Programs where
  /-- Where a program is. -/
  find : String → Option String
  /-- Runs a command on a text. -/
  run : List String → String → ProgramResult

/-- No programs at all. -/
def Programs.absent : Programs := ⟨fun _ => none, fun _ _ => .notStarted "no such program"⟩

/-- Where a program is; an empty answer counts as none. -/
def Programs.find? (ps : Programs) (name : String) : Option String :=
  (ps.find name).filter fun path => !path.isEmpty

/-- The command that formats text of a language: `prettier` itself, or else `npx` that may find it
in the project. -/
def Programs.formatter? (ps : Programs) (language : String) : Option (List String) :=
  match ps.find? "prettier", ps.find? "npx" with
  | some prettier, _ => some [prettier, "--parser", language]
  | none, some npx => some [npx, "--no-install", "prettier", "--parser", language]
  | none, none => none

/-- The text as the formatter lays it out (section 6.3 of the specification). Where there is none,
or where it fails, the text stays as it is. -/
def Programs.format (ps : Programs) (language text : String) : String :=
  match ps.formatter? language with
  | some command =>
    match ps.run command text with
    | .succeeded output => output
    | _ => text
  | none => text

end SchemaForge
