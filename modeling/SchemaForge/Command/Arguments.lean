import SchemaForge.Text.Digit
import SchemaForge.Value.Entries

/-!
# Arguments of commands

The arguments of a command (section 10.4 of the specification) are options, each with as many values
as it takes. A long name may be cut short as long as one option matches, and a value may follow it
behind an equals sign; a double dash there is no value. Short options take no values and may share
one dash, also with an equals sign behind the first of them.

A word is read as an option if it begins with a dash; exceptions are a single dash, a negative
number, and a word with a space that matches no option. Commands take no other words, and none
behind a double dash.
-/

namespace SchemaForge.Command

/-- An option of a command. -/
inductive Flag where
  /-- Shows how to use the command. -/
  | help
  /-- The files and directories of migrations. -/
  | migrations
  /-- The address of the server. -/
  | server
  /-- The token that grants access to the server. -/
  | token
  /-- The directory of the project. -/
  | projectDir
  /-- Tells what is done. -/
  | verbose
  /-- The directory of the module. -/
  | outputDir
  /-- Leaves the module as it is generated. -/
  | noFormat
  deriving DecidableEq, Repr

/-- How many values an option takes. -/
inductive Arity where
  /-- None. -/
  | none
  /-- One. -/
  | one
  /-- At least one. -/
  | some
  deriving DecidableEq

/-- How many values an option takes. -/
def Flag.arity : Flag → Arity
  | .help => .none
  | .migrations => .some
  | .server => .one
  | .token => .one
  | .projectDir => .one
  | .verbose => .none
  | .outputDir => .one
  | .noFormat => .none

/-- The names of the options of all commands. -/
def commonFlags : List (String × Flag) :=
  [("-h", .help), ("--help", .help), ("--migrations", .migrations), ("--server", .server),
    ("--token", .token), ("--project-dir", .projectDir), ("--verbose", .verbose),
    ("-v", .verbose)]

/-- The names of the options of the command that writes the module. -/
def outputFlags : List (String × Flag) :=
  commonFlags ++ [("--output-dir", .outputDir), ("--no-format", .noFormat)]

/-- A word of the command line, as `readWords` classifies it before any option is looked at. -/
inductive Word where
  /-- An option by its long or short name, with what follows the name in the word. -/
  | option (flag : Flag) (short : Bool) (attached : Option String)
  /-- The name of no option. -/
  | unknown
  /-- A value. -/
  | value (text : String)
  /-- A double dash. -/
  | separator

/-- The text before the first equals sign, and the text behind it. -/
def splitEquals (text : String) : String × Option String :=
  let cs := text.toList
  match cs.dropWhile (· ≠ '=') with
  | [] => (text, none)
  | _ :: rest => (String.ofList (cs.takeWhile (· ≠ '=')), some (String.ofList rest))

/-- Digits, at least one. -/
def isDigits (cs : List Char) : Bool := !cs.isEmpty && cs.all Text.isDigit

/-- A negative number: a dash and digits, with a point before the last of them at most, and perhaps
with a line feed behind them. Such a word is a value, for no option looks like a number. -/
def isNegativeNumber : List Char → Bool
  | '-' :: cs =>
    let cs := if cs.getLast? == some '\n' then cs.dropLast else cs
    isDigits cs || (match cs.dropWhile Text.isDigit with
      | '.' :: rest => isDigits rest
      | _ => false)
  | _ => false

/-- Whether a name is a long one. -/
def isLong (name : List Char) : Bool := "--".toList.isPrefixOf name

/-- The options that a word may mean without being the name of one: a long name that is cut short,
or a short name with something attached. -/
def candidates (flags : List (String × Flag)) (text : String) : List Word :=
  let cs := text.toList
  if isLong cs then
    -- A name that is cut short matches every option that it begins.
    let (start, attached) := splitEquals text
    (flags.filter fun f => start.toList.isPrefixOf f.1.toList).map fun f =>
      .option f.2 false attached
  else
    let (short, rest) := (String.ofList (cs.take 2), String.ofList (cs.drop 2))
    flags.filterMap fun f =>
      if f.1 = short then some (.option f.2 true (some rest))
      else if cs.isPrefixOf f.1.toList then some (.option f.2 (!isLong f.1.toList) none)
      else none

/-- A word that begins with a dash; none if it is ambiguous. A name that is given in full comes
before all `candidates`. -/
def readOption (flags : List (String × Flag)) (text : String) : Option Word :=
  let (name, attached) := splitEquals text
  match Entries.get? text flags, attached, Entries.get? name flags with
  | some flag, _, _ => some (.option flag (!isLong text.toList) none)
  | none, some value, some flag => some (.option flag (!isLong name.toList) (some value))
  | _, _, _ =>
    -- A single dash is a value, as it is for programs that read their input.
    if text = "-" then some (.value text)
    else match candidates flags text with
      | [word] => some word
      | [] =>
        if isNegativeNumber text.toList || text.toList.contains ' ' then some (.value text)
        else some .unknown
      | _ => none

/-- The words of a command line; none if one is ambiguous. Behind a double dash all are values. -/
def readWords (flags : List (String × Flag)) : List String → Option (List Word)
  | [] => some []
  | text :: rest =>
    if text = "--" then some (.separator :: rest.map .value)
    else if "-".toList.isPrefixOf text.toList then do
      return (← readOption flags text) :: (← readWords flags rest)
    else do return .value text :: (← readWords flags rest)

/-- What is said of an option that takes one value. `Setting.over` puts it over the value from
before. -/
inductive Setting where
  /-- Nothing. -/
  | unset
  /-- That it has no value. -/
  | blank
  /-- Its value. -/
  | value (text : String)
  deriving DecidableEq, Repr

/-- The value that an option has if it had another one before. -/
def Setting.over (s : Setting) (before : Option String) : Option String :=
  match s with
  | .unset => before
  | .blank => none
  | .value text => some text

/-- The options that were given. -/
structure Arguments where
  /-- The files and directories of migrations. -/
  migrations : List String := []
  /-- The address of the server. -/
  server : Setting := .unset
  /-- The token that grants access to the server. -/
  token : Setting := .unset
  /-- The directory of the project. -/
  projectDir : Setting := .unset
  /-- Whether to tell what is done. -/
  verbose : Bool := false
  /-- The directory of the module. -/
  outputDir : Setting := .unset
  /-- Whether to leave the module as it is generated. -/
  noFormat : Bool := false

/-- Why a command is not run: `parse` ends with one of these where there are no arguments to run it
with. -/
inductive Usage where
  /-- The arguments are wrong. -/
  | wrong
  /-- Help is asked for. -/
  | help
  deriving DecidableEq

namespace Arguments

/-- The options with one more that takes no value. -/
def raise (a : Arguments) : Flag → Except Usage Arguments
  | .help => .error .help
  | .verbose => .ok { a with verbose := true }
  | .noFormat => .ok { a with noFormat := true }
  | _ => .error .wrong

/-- The options with one more that takes one value. -/
def assign (a : Arguments) (flag : Flag) (s : Setting) : Except Usage Arguments :=
  match flag with
  | .server => .ok { a with server := s }
  | .token => .ok { a with token := s }
  | .projectDir => .ok { a with projectDir := s }
  | .outputDir => .ok { a with outputDir := s }
  | _ => .error .wrong

/-- The options with one more and the values behind it. -/
def give (a : Arguments) (flag : Flag) (values : List String) : Except Usage Arguments :=
  match flag.arity, values with
  | .some, _ :: _ => .ok { a with migrations := values }
  | .one, [v] => a.assign flag (.value v)
  | _, _ => .error .wrong

/-- The options with one more and the value attached to it; a double dash there is no value, and
blanks the option. -/
def attach (a : Arguments) (flag : Flag) (value : String) : Except Usage Arguments :=
  match flag.arity with
  | .none => .error .wrong
  | .one => a.assign flag (if value = "--" then .blank else .value value)
  | .some => .ok { a with migrations := if value = "--" then [] else [value] }

/-- The options that letters stand for, each of which has to be a short name. -/
def cluster (flags : List (String × Flag)) : List Char → Except Usage (List Flag)
  | [] => .ok []
  | c :: rest =>
    match Entries.get? (String.ofList ['-', c]) flags with
    | some flag => do return flag :: (← cluster flags rest)
    | none => .error .wrong

/-- The options with one more that takes no value, and with those that share its dash
(`cluster`). -/
def raiseAll (flags : List (String × Flag)) (a : Arguments) (flag : Flag) (short : Bool)
    (letters : String) : Except Usage Arguments := do
  if !short || letters.isEmpty then throw .wrong
  (flag :: (← cluster flags letters.toList)).foldlM raise a

/-- The values at the front of words. -/
def leadingValues : List Word → List String
  | .value text :: rest => text :: leadingValues rest
  | _ => []

/-- The options that words give, added to those in `a`. Words that belong to no option make the
arguments wrong, but help may still be asked for behind them. -/
def ofWords (flags : List (String × Flag)) (stray : Bool) (a : Arguments) :
    List Word → Except Usage Arguments
  | [] => if stray then .error .wrong else .ok a
  | .option flag short attached :: rest =>
    match flag.arity, attached with
    | .none, none => do ofWords flags stray (← a.raise flag) rest
    | .none, some letters => do ofWords flags stray (← raiseAll flags a flag short letters) rest
    | _, some value => do ofWords flags stray (← a.attach flag value) rest
    -- The words of a value were read as values, or they would be options.
    | .one, none => do
      ofWords flags stray (← a.give flag ((leadingValues rest).take 1)) (rest.drop 1)
    | .some, none => do
      let values := leadingValues rest
      ofWords flags stray (← a.give flag values) (rest.drop values.length)
  | _ :: rest => ofWords flags true a rest
termination_by words => words.length

/-- The options that a command line gives, or what ends the command before it begins. -/
def parse (flags : List (String × Flag)) (words : List String) : Except Usage Arguments :=
  match readWords flags words with
  | some words => ofWords flags false {} words
  | none => .error .wrong

end Arguments

end SchemaForge.Command
