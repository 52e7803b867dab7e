import SchemaForge.Json.Writer
import SchemaForge.Report

/-!
# Remembered quotes

Names are quoted many times over, so their quoted forms are remembered (section 5 of the
specification) in a table of bounded size from which the entry unused for longest gives way. Texts
and integers have an entry of their own; other values share one with every value that they equal, so
that `true` is quoted like `1.0` if that was quoted before.

`Encoder` is the type of what writes source text: it carries the table and may fail.
-/

namespace SchemaForge

/-- Why a schema cannot be written as source text. -/
inductive Unencodable where
  /-- A value is not a literal of the module language. -/
  | value (v : Value)
  /-- A default calls a function that the runtime does not have. -/
  | function (name : String)
  /-- An attribute is of a kind that has no constructor. -/
  | kind (name : String)

/-- The wording of a cause. -/
def Unencodable.wording : Unencodable → String
  | .value v =>
    "Cannot encode value " ++ v.display ++ " of type '" ++ v.kindName ++ "' as a literal"
  | .function name => "Invalid default function name '" ++ name ++ "'"
  | .kind name => "Invalid attribute type '" ++ name ++ "'"

/-- What the user is told of a schema that cannot be written. -/
def Unencodable.report (cause : Unencodable) : Report := { wording := cause.wording }

/-- The remembered quotes, the one used last in front. `QuoteTable.Arises` says which tables there
can be. -/
structure QuoteTable where
  /-- Quoted values with their quoted forms. -/
  entries : List (Value × String) := []
  /-- How many quotes are remembered. -/
  capacity : Nat := 1024

namespace QuoteTable

/-- Whether two values share an entry. A text shares its entry with texts only and an integer with
integers, but all other values are looked up by `Value.same`. -/
def shares : Value → Value → Bool
  | .str s, .str t => s == t
  | .str _, _ => false
  | _, .str _ => false
  | .int m, .int n => m == n
  | .int _, _ => false
  | _, .int _ => false
  -- Truth values and numbers with a point are left here, and meet in their worth.
  | v, w => v.same w

/-- The remembered form of a value: that of the first entry that it shares. -/
def find? (t : QuoteTable) (v : Value) : Option (Value × String) :=
  t.entries.find? fun e => shares e.1 v

/-- The table with an entry in front, wherever it was. -/
def touch (t : QuoteTable) (e : Value × String) : QuoteTable :=
  { t with entries := e :: t.entries.filter fun o => !shares o.1 e.1 }

/-- The table with a new entry, without the oldest one if it was full; with a `capacity` of zero
nothing is kept. -/
def add (t : QuoteTable) (e : Value × String) : QuoteTable :=
  { t with entries := (e :: t.entries).take t.capacity }

end QuoteTable

/-- What writes source text: it may fail, and it remembers what it quoted in a `QuoteTable`. A
failure leaves no table. -/
abbrev Encoder := StateT QuoteTable (Except (Failure Unencodable))

/-- One line, with names for NaN and the infinities. -/
def quoteStyle : Json.Style := ⟨none, true⟩

/-- The quoted form of a value without regard to the table: its JSON text on one line. -/
def plainQuote (v : Value) : Except Fault String := Json.write quoteStyle v

/-- The quoted form of a value, from the table if it is there, and else by `plainQuote`. A value
that cannot be looked up breaks down. -/
def quote (v : Value) : Encoder String := fun t =>
  if !v.isHashable then .error (.broken .wrongKind)
  else match t.find? v with
    -- The entry may be that of another value that this one equals.
    | some e => .ok (e.2, t.touch e)
    | none =>
      match plainQuote v with
      | .ok s => .ok (s, t.add (v, s))
      | .error e => .error (.broken e)

/-- The result of an encoder that has nothing to remember yet. `IsSteady.result_eq` says when a
table makes no difference. -/
def Encoder.result (e : Encoder α) : Outcome Unencodable α := (e.run {}).map (·.1)

end SchemaForge
