import SchemaForge.Json.Reader
import SchemaForge.Report
import SchemaForge.Text.Quoted

/-!
# Errors in modules

Why a text cannot be read as a module (section 6.4 of the specification). Errors of the text itself
name the place; errors of what the text says do not.
-/

namespace SchemaForge.Source

/-- Why a text is not a module that exports a schema. `Cause.wording` words it, and `Error` adds the
place where there is one. -/
inductive Cause where
  /-- No token begins with a character. -/
  | unexpectedCharacter (c : Char)
  /-- A string token holds an escape or a character that has no meaning. -/
  | badString (token : String) (cause : Json.Cause)
  /-- The text ends too early. -/
  | unexpectedEnd
  /-- One token was wanted and another one was found. -/
  | expected (wanted found : String)
  /-- A token begins nothing that may stand there. -/
  | unexpected (found : String)
  /-- A token follows the exported object. -/
  | afterExport (found : String)
  /-- A name was wanted. -/
  | noIdentifier
  /-- The path of an import was wanted. -/
  | noModulePath
  /-- A token is no key of an object. -/
  | badKey (found : String)
  /-- A name is neither a constant nor called. -/
  | badReference (path : List String)
  /-- A value is not a call of a certain constructor. -/
  | notConstructor (builder constructor : String) (found : Value)
  /-- A call lacks the argument of an index. -/
  | missingArgument (path : List String) (index : Nat)
  /-- The options of an attribute are not an object. -/
  | badOptions (found : Value)
  /-- A default is a call of something else than the functions that compute defaults. -/
  | badDefault (path : List String)
  /-- The items of a set are not of a primitive kind. -/
  | compoundItems
  /-- The query of a relation is not an object. -/
  | badSubquery (found : Value)
  /-- A value is no attribute. -/
  | badAttribute (found : Value)
  /-- A tree is not an object. -/
  | badTree (found : Value)
  /-- What is exported is not an object. -/
  | badExport
  /-- A member of the exported object has no schema. -/
  | noSchema (collection : String)

/-- A dotted name. -/
def dotted (path : List String) : String := Text.join "." path

/-- The wording of a cause. -/
def Cause.wording : Cause → String
  | .unexpectedCharacter c => "unexpected character " ++ Text.quoted (String.singleton c)
  | .badString token cause => "unsupported string literal " ++ token ++ ": " ++ cause.message
  | .unexpectedEnd => "unexpected end of input"
  | .expected wanted found => "expected " ++ Text.quoted wanted ++ ", found " ++ Text.quoted found
  | .unexpected found => "unexpected " ++ Text.quoted found
  | .afterExport found => "unexpected " ++ Text.quoted found ++ " after export"
  | .noIdentifier => "expected an identifier"
  | .noModulePath => "expected a module path"
  | .badKey found => "invalid object key " ++ Text.quoted found
  | .badReference path => "unsupported reference '" ++ dotted path ++ "'"
  | .notConstructor builder constructor found =>
    "expected " ++ builder ++ "." ++ constructor ++ "(...), found " ++ found.display
  | .missingArgument path index =>
    dotted path ++ "(...) is missing argument " ++ Number.intText (index + 1)
  | .badOptions found => "attribute options must be an object, found " ++ found.display
  | .badDefault path => "unsupported default " ++ dotted path ++ "(...)"
  | .compoundItems => "set items must be a primitive type"
  | .badSubquery found => "relation subquery must be an object, found " ++ found.display
  | .badAttribute found => "unsupported attribute expression " ++ found.display
  | .badTree found => "expected an object of attributes, found " ++ found.display
  | .badExport => "exported schema must be an object"
  | .noSchema collection => "collection '" ++ collection ++ "' has no schema"

/-- A cause, and its place in the text where it has one: errors of tokens and of their order have a
place, those of what is said have none. -/
structure Error where
  /-- Why the text cannot be read. -/
  cause : Cause
  /-- The number of characters before the place. -/
  position : Option Nat := none

/-- What the user is told of a text that cannot be read. -/
def Error.report (e : Error) : Report :=
  { wording := e.cause.wording, position := e.position.map Int.ofNat }

end SchemaForge.Source
