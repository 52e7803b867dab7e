import SchemaForge.Migration.Operation

/-!
# Replaying migrations

A migration is a mapping with a `version` and the steps `up`; each step is a pair of an operation's
name and its parameters. `Migration.resolve` replays migrations in the order of their versions on
the empty state, and reads the state that they lead to as a schema.

The working state keeps its version until all steps of a migration have succeeded.
-/

namespace SchemaForge.Migration

/-- The version of a migration, by `Value.toInt`. An infinity is no foreseen error: the conversion
breaks down on it. -/
def versionOf (migration : Value) : Outcome MigrationError Int :=
  match migration.entries? with
  | some entries =>
    match Value.field? "version" entries with
    | none => refuse ⟨.noVersion, none, none⟩
    | some version =>
      match version.toInt with
      | .ok n => .ok n
      -- This one conversion error is not among those that are foreseen.
      | .error .outOfRange => .error (.broken .outOfRange)
      | .error _ => refuse ⟨.badVersion version, none, none⟩
  | none => refuse ⟨.noVersion, none, none⟩

/-- The operation that a value names; only a text can name one. -/
def operationOf (name : Value) : Outcome Refusal (String × Operation) :=
  match name with
  | .str s =>
    match Operation.ofName? s with
    | some op => .ok (s, op)
    | none => refuse (.unknownOperation name)
  | _ => refuse (.unknownOperation name)

/-- The two parts of a step, which is any sequence of two items but a text. -/
def stepParts (step : Value) : Outcome Refusal (Value × Value) :=
  match step, step.items? with
  -- A text of two characters is a sequence of two items, and is meant by nobody.
  | .str _, _ => refuse (.malformedStep step)
  | _, some [name, parameters] => .ok (name, parameters)
  | _, _ => refuse (.malformedStep step)

/-- Takes one step: `stepParts`, `operationOf`, and then `Operation.run` with the parameters, which
have to be a mapping. -/
def runStep (step : Value) : Change Refusal Unit := do
  let (name, parameters) ← stepParts step
  let (name, op) ← operationOf name
  match parameters.entries? with
  | some ps => op.run ps
  | none => .fail (.parametersNotMapping name)

/-- Takes the steps of a migration one by one with `runStep`, and then gives the state its version.
Errors of the steps are told with the version. -/
def apply (migration : Value) : Change MigrationError Unit := do
  let version ← versionOf migration
  let steps ← ((← migration.get "up").orElse (.list [])).elements
  steps.forM fun step => (runStep step).seenAs (⟨·, some version, none⟩)
  -- A step that fails ends the migration above, and the state keeps its version.
  .write "version" (.int version)

/-- The state before all migrations: no collections, at version zero. -/
def emptyState : Value := .record [("version", .int 0), ("collections", .mapping [])]

/-- The migrations in the order of their versions; of equal versions the first comes first, since
`mergeSort` is stable. -/
def inOrder (migrations : List Value) : Outcome MigrationError (List Value) := do
  let versions ← migrations.mapM versionOf
  return ((versions.zip migrations).mergeSort fun a b => a.1 ≤ b.1).map (·.2)

/-- The version of a working state, which errors of its schema are told with. -/
def stateVersion (state : Value) : Option Int :=
  match state.get "version" with
  | .ok (.int n) => some n
  | _ => none

/-- The schema that a working state describes, as `Schema.ofValue` reads it; a state that is no
schema is an error of the migrations. -/
def schemaOf (state : Value) : Outcome MigrationError (Option Schema) :=
  Outcome.seenAs (fun cause => ⟨.invalidSchema cause, stateVersion state, none⟩)
    (Schema.ofValue state)

/-- The schema after a list of migrations, replayed by `apply` in the order of their versions on the
`emptyState`. -/
def replay (migrations : List Value) : Outcome MigrationError (Option Schema) := do
  let ordered ← inOrder migrations
  -- A failure is told before the state is looked at.
  let (result, state) := (ordered.forM apply : Change MigrationError Unit).runOn emptyState
  result
  schemaOf state

/-- The schema after the migrations that a value lists; without migrations there is none (section
6.1 of the specification). -/
def resolve (migrations : Value) : Outcome MigrationError (Option Schema) := do
  if migrations.isTruthy then replay (← migrations.elements) else return none

end SchemaForge.Migration
