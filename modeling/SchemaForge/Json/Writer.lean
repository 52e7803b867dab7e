import SchemaForge.Number.Shortest
import SchemaForge.Text.Quoted
import SchemaForge.Value.Access

/-!
# Writing JSON

The JSON text of a value, on one line or with one item to a line. Modules hold conditions, orders
and rules in this form (sections 4.2 and 4.3 of the specification). A text is escaped no more than
JSON demands: the quotation mark, the backslash and the control characters below the space. Keys
that are not texts are written as the text of their JSON form, so two keys may come out alike.
Values that JSON does not know have no text, and neither do values that occur within themselves, nor
NaN and the infinities unless the writer is told to name them.
-/

namespace SchemaForge.Json

/-- A character inside a string literal. -/
def escapedChar (c : Char) : List Char :=
  if c = '"' then ['\\', '"']
  else if c = '\\' then ['\\', '\\']
  else if c = '\n' then ['\\', 'n']
  else if c = '\r' then ['\\', 'r']
  else if c = '\t' then ['\\', 't']
  else if c.toNat = 8 then ['\\', 'b']
  else if c.toNat = 12 then ['\\', 'f']
  else if c.toNat < 32 then '\\' :: 'u' :: Text.hexOnto 4 c.toNat []
  else [c]

/-- A text as a string literal, each character as `escapedChar` gives it. Texts of a module are
quoted by the same function (`plainQuote`). -/
def quote (s : String) : String :=
  String.ofList ('"' :: (s.toList.flatMap escapedChar ++ ['"']))

/-- How a JSON text is laid out, and what it may hold. -/
structure Style where
  /-- The width of one level of indentation, or none for a text on one line. -/
  indent : Option Int
  /-- Whether NaN and the infinities have names. -/
  namesNonFinite : Bool

/-- The line break before an item at a depth, with its indentation, or nothing in a text on one
line. -/
def Style.lineBreak (style : Style) (depth : Nat) : String :=
  match style.indent with
  | none => ""
  | some width => String.ofList ('\n' :: List.replicate (width * depth).toNat ' ')

/-- What stands between two items at a depth. -/
def Style.separator (style : Style) (depth : Nat) : String :=
  match style.indent with
  | none => ", "
  | some _ => "," ++ style.lineBreak depth

/-- A number with the names of `Number.jsonLayout`, or the fault that it has no JSON text. -/
def Style.number (style : Style) (x : Double) : Except Fault String :=
  if x.isFinite || style.namesNonFinite then .ok (x.text Number.jsonLayout) else .error .badValue

/-- A scalar as a JSON value. -/
def Style.scalar (style : Style) : Scalar → Except Fault String
  | .null => .ok "null"
  | .bool b => .ok (if b then "true" else "false")
  | .int n => .ok (Number.intText n)
  | .float x => style.number x
  | .str s => .ok (quote s)
  | .time _ => .error .wrongKind
  | .bytes _ => .error .wrongKind

/-- A scalar as the key of an object: what is not a text is written by `Style.scalar` and quoted
then. -/
def Style.key (style : Style) (k : Scalar) : Except Fault String :=
  match k with
  | .str s => .ok (quote s)
  | k => (style.scalar k).map quote

/-- A bracketed list of written items at a depth. -/
def Style.enclose (style : Style) (depth : Nat) (opening closing : String) :
    List String → String
  | [] => opening ++ closing
  | items =>
    opening ++ style.lineBreak (depth + 1) ++ Text.join (style.separator (depth + 1)) items
      ++ style.lineBreak depth ++ closing

mutual

/-- The JSON text of a tree that stands at a depth. -/
def Style.write (style : Style) (depth : Nat) : Value → Except Fault String
  | .scalar s => style.scalar s
  | .list items => do
    return style.enclose depth "[" "]" (← writeAll style (depth + 1) items)
  | .tuple items => do
    return style.enclose depth "[" "]" (← writeAll style (depth + 1) items)
  | .mapping entries => do
    return style.enclose depth "\x7b" "\x7d" (← writeEntries style (depth + 1) entries)
  | .set _ => .error .wrongKind
  | .function .. => .error .wrongKind
  | .call .. => .error .wrongKind
  | .knot .. => .error .badValue
  | .link .. => .error .badValue

/-- The JSON texts of several trees. -/
def Style.writeAll (style : Style) (depth : Nat) : List Value → Except Fault (List String)
  | [] => .ok []
  | v :: rest => do
    let text ← write style depth v
    return text :: (← writeAll style depth rest)

/-- The members of an object. -/
def Style.writeEntries (style : Style) (depth : Nat) :
    List (Scalar × Value) → Except Fault (List String)
  | [] => .ok []
  | (k, v) :: rest => do
    let key ← style.key k
    let text ← write style depth v
    return (key ++ ": " ++ text) :: (← writeEntries style depth rest)

end

/-- The JSON text of a value. -/
def write (style : Style) (v : Value) : Except Fault String := style.write 0 v.spread

end SchemaForge.Json
