import SchemaForge.Schema.Reading

/-!
# Errors of migrations

Why a migration cannot be applied. A `Refusal` is the reason alone; a `MigrationError` says with it
which migration failed or which document is to blame.
-/

namespace SchemaForge

/-- Why a step, a migration or a document of migrations is refused. Every one of these is an error
that section 6.1 of the specification announces. -/
inductive Refusal where
  /-- The working state has no collection of that name. -/
  | noCollection (name : String)
  /-- The working state already has a collection of that name. -/
  | collectionExists (name : String)
  /-- An operation needs a parameter that it is not given. -/
  | missingParameter (name : String)
  /-- A parameter has to be a name. -/
  | notName (parameter : String) (value : Value)
  /-- A parameter, or a part of the record on the way, has to be a mapping. -/
  | notMapping (parameter : String) (value : Value)
  /-- A parameter, or a part of the record on the way, has to be a list. -/
  | notList (parameter : String) (value : Value)
  /-- The path to an attribute has no keys. -/
  | emptyPath
  /-- A key on the way of the path has no record attribute. -/
  | noRecord (path : List String)
  /-- The record has no attribute under the key. -/
  | noAttribute (key : String)
  /-- The record already has an attribute under the key. -/
  | attributeExists (key : String)
  /-- What stands under the key is not a mapping. -/
  | attributeNotMapping (key : String)
  /-- The rules of the collection are not a mapping. -/
  | rulesNotMapping
  /-- What stands under a scope in the rules is not a mapping. -/
  | scopeNotMapping
  /-- A migration has no version. -/
  | noVersion
  /-- The version of a migration is not a number. -/
  | badVersion (version : Value)
  /-- A step is not a pair of an operation and its parameters. -/
  | malformedStep (step : Value)
  /-- A step names an operation that does not exist. -/
  | unknownOperation (name : Value)
  /-- The parameters of an operation are not a mapping. -/
  | parametersNotMapping (operation : String)
  /-- The state that the migrations lead to is not a schema. -/
  | invalidSchema (cause : Malformed)
  /-- An item of a document is not a migration. -/
  | notMigration

/-- The wording of a reason. -/
def Refusal.wording : Refusal → String
  | .noCollection name => "collection '" ++ name ++ "' does not exist"
  | .collectionExists name => "collection '" ++ name ++ "' already exists"
  | .missingParameter name => "operation is missing parameter '" ++ name ++ "'"
  | .notName p v => "parameter '" ++ p ++ "' must be a string, got " ++ v.display
  | .notMapping p v => "parameter '" ++ p ++ "' must be a mapping, got " ++ v.display
  | .notList p v => "parameter '" ++ p ++ "' must be a list, got " ++ v.display
  | .emptyPath => "attribute path is empty"
  | .noRecord path => "'" ++ Text.join "." path ++ "' does not resolve to a record attribute"
  | .noAttribute key => "attribute '" ++ key ++ "' does not exist"
  | .attributeExists key => "attribute '" ++ key ++ "' already exists"
  | .attributeNotMapping key => "attribute '" ++ key ++ "' is not a mapping"
  | .rulesNotMapping => "collection rules must be a mapping"
  | .scopeNotMapping => "rule scope must be a mapping"
  | .noVersion => "migration record is missing 'version'"
  | .badVersion v => "invalid migration version " ++ v.display
  | .malformedStep step => "malformed operation " ++ step.display
  | .unknownOperation name => "unknown operation '" ++ name.text ++ "'"
  | .parametersNotMapping op => "parameters of '" ++ op ++ "' must be a mapping"
  | .invalidSchema cause =>
    "migrations produced an invalid schema: " ++ (cause.report none).message
  | .notMigration => "not a migration record (missing 'version')"

/-- A reason with the migration or the document that it concerns. The version is that of the
migration whose step has failed. -/
structure MigrationError where
  /-- The reason. -/
  cause : Refusal
  /-- The version of the migration that fails. -/
  version : Option Int := none
  /-- The document that holds no migration. -/
  document : Option String := none

/-- What the user is told of a failed migration. -/
def MigrationError.report (e : MigrationError) : Report :=
  { wording := e.cause.wording, version := e.version, document := e.document }

end SchemaForge
