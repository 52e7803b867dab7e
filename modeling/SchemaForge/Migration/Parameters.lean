import SchemaForge.Migration.Error

/-!
# Parameters of operations

How an operation reads what it is given, as the table in section 6.1 of the specification lists it.
Names and keys may be written as numbers, since a document that names a collection `1` may have
loaded the name as a number: they are taken by their text.
-/

namespace SchemaForge

/-- The parameters of an operation: the entries of the mapping that a step gives, not only those
that the operation knows. -/
abbrev Parameters := List (Scalar × Value)

namespace Parameters

/-- A parameter that has to be there. -/
def required (ps : Parameters) (name : String) : Outcome Refusal Value :=
  match Value.field? name ps with
  | some v => .ok v
  | none => refuse (.missingParameter name)

/-- A parameter, absent if it is not there; an absent value is not told from a missing one, unlike
by `required`. -/
def optional (ps : Parameters) (name : String) : Value := (Value.field? name ps).getD .null

/-- A parameter that has to be a name: a text, or an integer, which is taken by its text. -/
def nameOf (ps : Parameters) (name : String) : Outcome Refusal String := do
  match ← required ps name with
  | .str s => return s
  -- A truth value is no name, although it is a key of a path.
  | .int n => return Number.intText n
  | v => refuse (.notName name v)

/-- The entries under the texts of their keys. Of entries with the same text the last one stays, in
the place of the first. -/
def withTextKeys (entries : List (Scalar × Value)) : List (Scalar × Value) :=
  Entries.ofPairs (entries.map fun e => (.str e.1.text, e.2))

/-- The entries of a value that has to be a mapping, by `withTextKeys`; an absent value has none.
The error names the parameter. -/
def mappingOf (name : String) (v : Value) : Outcome Refusal (List (Scalar × Value)) :=
  if v.isNull then .ok []
  else match v.entries? with
    | some entries => .ok (withTextKeys entries)
    | none => refuse (.notMapping name v)

/-- The keys in a value that has to be a list, as texts; an absent value has none. The error names
the parameter. -/
def keysOf (name : String) (v : Value) : Outcome Refusal (List String) :=
  if v.isNull then .ok []
  else match v.listItems? with
    | some items => .ok (items.map Value.text)
    | none => refuse (.notList name v)

/-- The path to an attribute: a list of keys, or a single key, which may be written as a number or a
truth value. -/
def path (ps : Parameters) : Outcome Refusal (List String) := do
  match ← required ps "path" with
  | .str s => return [s]
  | .int n => return [Number.intText n]
  | .bool b => return [(Scalar.bool b).text]
  | v => keysOf "path" v

end Parameters

end SchemaForge
