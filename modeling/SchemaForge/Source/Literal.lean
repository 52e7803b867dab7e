import SchemaForge.Schema.Basic
import SchemaForge.Source.Quotes

/-!
# Literals

Scalars, defaults and settings as source text, and embedded JSON. A literal is the absent value, a
truth value, a text, an integer or a finite number. The only functions that a default may call are
`now` and `uuid`.
-/

namespace SchemaForge.Source

/-- The name under which a module imports the constructors. -/
def builderName : String := "S"

/-- The functions that compute defaults. -/
def defaultFunctions : List String := ["now", "uuid"]

/-- A scalar as a literal (section 4.1 of the specification); what is none is an error that shows
the value. Only texts go through the `QuoteTable`. -/
def literal : Value → Encoder String
  | .null => pure "null"
  | .bool b => pure (if b then "true" else "false")
  | .str s => quote (.str s)
  | .int n => pure (Number.intText n)
  | .float x =>
    if x.isFinite then pure (x.text Number.jsonLayout) else throw (.refused (.value (.float x)))
  | v => throw (.refused (.value v))

/-- Several scalars as literals. -/
def literals : List Value → Encoder (List String)
  | [] => pure []
  | v :: rest => do
    let text ← literal v
    return text :: (← literals rest)

/-- A default: a literal, or a call of one of `defaultFunctions`, whose arguments are literals. -/
def default : Value → Encoder String
  | .function name arguments => do
    if !defaultFunctions.contains name then throw (.refused (.function name))
    return builderName ++ ".Default." ++ name ++ "(" ++ Text.join ", " (← literals arguments) ++ ")"
  | v => literal v

/-- An object whose keys need no quotes, on one line. -/
def inlineObject (members : List (String × String)) : String :=
  "\x7b" ++ Text.join ", " (members.map fun m => m.1 ++ ": " ++ m.2) ++ "\x7d"

/-- The argument that sets the options of a constructor, empty where nothing is set, so that
`construct` leaves it out. -/
def options (o : Options) : Encoder String := do
  -- Whether nothing is set is told by the members, not by the values.
  let nullable ← if o.nullable.isNull then pure []
    else pure [("nullable", ← literal o.nullable)]
  let default ← match o.default with
    | none => pure []
    | some d => pure [("default", ← default d)]
  let members := nullable ++ default
  return if members.isEmpty then "" else inlineObject members

/-- A value as embedded JSON, which knows no NaN and no infinities. A value without JSON text is an
error that shows all of it. -/
def embedded (v : Value) (indent : Option Int) : Outcome Unencodable String :=
  match Json.write ⟨indent, false⟩ v with
  | .ok text => .ok text
  | .error _ => refuse (.value v)

end SchemaForge.Source
