import SchemaForge.Number.Shortest
import SchemaForge.Text.Quoted
import SchemaForge.Value.Knot

/-!
# The text of values

`display` is the unambiguous form in which messages show a value: texts are quoted, and every
container shows its parts; one that occurs within itself is shown there by an ellipsis. `text` is
the plain form: a text stands for itself and a date is written as in a calendar; other values are
displayed.
-/

namespace SchemaForge

/-- The unambiguous form of a scalar, with texts as `Text.quoted` writes them. -/
def Scalar.display : Scalar → String
  | .null => "None"
  | .bool b => if b then "True" else "False"
  | .int n => Number.intText n
  | .float x => x.text Number.plainLayout
  | .str s => Text.quoted s
  | .time t => t.display
  | .bytes b => Text.quotedBytes b

/-- The plain form of a scalar: a text stands for itself, a date is written as in a calendar, and
all else is shown as by `Scalar.display`. -/
def Scalar.text : Scalar → String
  | .str s => s
  | .time t => t.text
  | s => s.display

namespace Value

/-- A sequence of fixed length from the forms of its parts: one part is followed by a comma. -/
def tupleDisplay : List String → String
  | [part] => "(" ++ part ++ ",)"
  | parts => "(" ++ Text.join ", " parts ++ ")"

/-- What stands for a list or a mapping within its own form. -/
def ellipsis (keyed : Bool) : String := if keyed then "\x7b...\x7d" else "[...]"

mutual

/-- The unambiguous form of a tree. A link that `spread` has left is shown by an `ellipsis`. -/
def displayTree : Value → String
  | .scalar s => s.display
  | .list items => "[" ++ Text.join ", " (displayTrees items) ++ "]"
  | .tuple items => tupleDisplay (displayTrees items)
  | .mapping entries => "\x7b" ++ Text.join ", " (displayEntries entries) ++ "\x7d"
  | .set members =>
    if members.isEmpty then "set()"
    else "\x7b" ++ Text.join ", " (members.map Scalar.display) ++ "\x7d"
  | .function name arguments =>
    "FunctionCall(name=" ++ Text.quoted name ++ ", args="
      ++ tupleDisplay (displayTrees arguments) ++ ")"
  | .call path arguments =>
    "Call(name=" ++ tupleDisplay (path.map Text.quoted) ++ ", args="
      ++ tupleDisplay (displayTrees arguments) ++ ")"
  | .knot .. => ellipsis false
  | .link _ keyed => ellipsis keyed

/-- The forms of several trees. -/
def displayTrees : List Value → List String
  | [] => []
  | v :: rest => displayTree v :: displayTrees rest

/-- The forms of the entries of a mapping. -/
def displayEntries : List (Scalar × Value) → List String
  | [] => []
  | (k, v) :: rest => (k.display ++ ": " ++ displayTree v) :: displayEntries rest

end

/-- The unambiguous form of a value, as messages show it: that of its tree (`spread`). -/
def display (v : Value) : String := v.spread.displayTree

/-- The plain form of a value, which keys and names are turned into: `Scalar.text` for a scalar, and
otherwise `display`. -/
def text : Value → String
  | .scalar s => s.text
  | v => v.display

end Value

end SchemaForge
