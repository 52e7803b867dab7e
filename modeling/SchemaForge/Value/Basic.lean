import SchemaForge.Number.Double
import SchemaForge.Value.Entries
import SchemaForge.Value.Timestamp

/-!
# Values

The dynamic data that documents, migration records and generated modules hold; what a schema carries
of it is opaque (section 3 of the specification). A `Scalar` is a value without parts and may be the
key of a mapping. A `Value` is a scalar, a sequence, a mapping, a set, a function that the runtime
calls for a default, or a dotted call read from a module.

Keys are compared by `Scalar.agrees`: numbers by what they are worth, so that `1`, `1.0` and
`true` are one key. The first of several agreeing keys names the entry.

A list or a mapping of a document may occur within itself. It is then a `knot`: all lists and
mappings of the document under numbers, each with a `link` where it holds another one of them.
-/

namespace SchemaForge

/-- A value without parts. It may be the key of a mapping, and keys are compared by
`Scalar.agrees`. -/
inductive Scalar where
  /-- The absent value. -/
  | null
  /-- A truth value. -/
  | bool (b : Bool)
  /-- An integer of any size. -/
  | int (n : Int)
  /-- A binary64 number. -/
  | float (x : Double)
  /-- A text. -/
  | str (s : String)
  /-- A date or a time. -/
  | time (t : Timestamp)
  /-- A byte string. -/
  | bytes (b : List UInt8)
  deriving DecidableEq, Inhabited

namespace Scalar

/-- A truth value counts as the integer 0 or 1. -/
def ofBool (b : Bool) : Int := if b then 1 else 0

/-- The integer that a truth value or an integer is worth. -/
def integer? : Scalar → Option Int
  | .bool b => some (ofBool b)
  | .int n => some n
  | _ => none

/-- The members of a set, in the order in which `Value.display` shows them: ascending if all are
worth integers not below zero, and as they were found otherwise. -/
def inSetOrder (members : List Scalar) : List Scalar :=
  if members.all fun s => s.integer?.any (0 ≤ ·) then
    members.mergeSort fun a b => a.integer?.getD 0 ≤ b.integer?.getD 0
  else members

/-- Equality of keys: by worth among numbers and times, and identity otherwise. A NaN agrees with
itself, since a mapping finds a key by identity first. -/
def agrees (a b : Scalar) : Bool :=
  match a, b with
  -- Identity comes first, so that a NaN is found where it was put.
  | .float x, .float y => x == y || x.equals y
  | .time s, .time t => s.agrees t
  | .float x, b => (b.integer?.map x.equalsInt).getD false
  | a, .float y => (a.integer?.map y.equalsInt).getD false
  | a, b =>
    match a.integer?, b.integer? with
    | some m, some n => m == n
    | none, none => decide (a = b)
    | _, _ => false

/-- Among scalars, `==` is equality of keys. -/
instance : BEq Scalar := ⟨agrees⟩

/-- The name of the kind of a scalar. -/
def kindName : Scalar → String
  | .null => "NoneType"
  | .bool _ => "bool"
  | .int _ => "int"
  | .float _ => "float"
  | .str _ => "str"
  | .time t => t.kindName
  | .bytes _ => "bytes"

/-- Whether a scalar counts as true: it is neither absent, nor false, nor zero, nor empty. Every
date and time counts as true. -/
def isTruthy : Scalar → Bool
  | .null => false
  | .bool b => b
  | .int n => n != 0
  | .float x => !x.isZero
  | .str s => !s.isEmpty
  | .time _ => true
  | .bytes b => !b.isEmpty

end Scalar

/-- The dynamic data of documents, migration records and modules. A list or a mapping that occurs
within itself is a `knot`, and the `link`s in its nodes lead back to them. -/
inductive Value where
  /-- A value without parts. -/
  | scalar (s : Scalar)
  /-- A sequence. -/
  | list (items : List Value)
  /-- A sequence of fixed length. -/
  | tuple (items : List Value)
  /-- A mapping, its entries in order. -/
  | mapping (entries : List (Scalar × Value))
  /-- A set of scalars. -/
  | set (members : List Scalar)
  /-- A function that the runtime calls to compute a default. -/
  | function (name : String) (arguments : List Value)
  /-- A dotted call read from a module, such as `S.String()`. -/
  | call (path : List String) (arguments : List Value)
  /-- The list or mapping number `n` of a document in which one occurs within itself. -/
  | knot (n : Nat) (nodes : List Value)
  /-- Within the nodes of a knot, the one of a number, which is a mapping or else a list. -/
  | link (n : Nat) (keyed : Bool)
  deriving Inhabited

namespace Value

/-- The absent value. -/
@[match_pattern] abbrev null : Value := .scalar .null
/-- A truth value. -/
@[match_pattern] abbrev bool (b : Bool) : Value := .scalar (.bool b)
/-- An integer. -/
@[match_pattern] abbrev int (n : Int) : Value := .scalar (.int n)
/-- A binary64 number. -/
@[match_pattern] abbrev float (x : Double) : Value := .scalar (.float x)
/-- A text. -/
@[match_pattern] abbrev str (s : String) : Value := .scalar (.str s)

/-- A mapping with text keys, as JSON has them: each name becomes a `Scalar.str`. -/
def record (fields : List (String × Value)) : Value :=
  .mapping (fields.map fun f => (.str f.1, f.2))

/-- What a value is at its top: a `knot` is the list or mapping of its number. Its links stay as
they are, unlike those that `unroll` follows. -/
def content : Value → Value
  | .knot n nodes => nodes.getD n .null
  | v => v

/-- The name of the kind of a value, as messages show it. A knot has that of its `content`. -/
def kindName (v : Value) : String :=
  match v.content with
  | .scalar s => s.kindName
  | .list _ => "list"
  | .tuple _ => "tuple"
  | .mapping _ => "dict"
  | .set _ => "set"
  | .function .. => "FunctionCall"
  | .call .. => "Call"
  | .knot .. => "list"
  | .link _ keyed => if keyed then "dict" else "list"

/-- Whether a value counts as true: a scalar by `Scalar.isTruthy`, a container when it is not empty,
and every call. -/
def isTruthy (v : Value) : Bool :=
  match v.content with
  | .scalar s => s.isTruthy
  | .list items => !items.isEmpty
  | .tuple items => !items.isEmpty
  | .mapping entries => !entries.isEmpty
  | .set members => !members.isEmpty
  | .function .. => true
  | .call .. => true
  | .knot .. => true
  | .link .. => true

/-- The absent value. -/
def isNull : Value → Bool
  | .null => true
  | _ => false

/-- A mapping. -/
def isMapping (v : Value) : Bool :=
  match v.content with
  | .mapping _ => true
  | _ => false

/-- The value itself if it counts as true (`isTruthy`), and `other` otherwise. -/
def orElse (v other : Value) : Value := if v.isTruthy then v else other

mutual

/-- Whether a value has no part that can change, so that it can be looked up, as in a `QuoteTable`.
Functions and calls are as fixed as their arguments. -/
def isHashable : Value → Bool
  | .scalar _ => true
  | .list _ => false
  | .tuple items => allHashable items
  | .mapping _ => false
  | .set _ => false
  | .function _ arguments => allHashable arguments
  | .call _ arguments => allHashable arguments
  | .knot .. => false
  | .link .. => false

/-- Whether all of the values can be looked up. -/
def allHashable : List Value → Bool
  | [] => true
  | v :: rest => isHashable v && allHashable rest

end

/-- Whether one may ask if a value is among the members of a set. That a set is none of them can be
told without looking it up. -/
def isComparable : Value → Bool
  | .set _ => true
  | v => v.isHashable

end Value

end SchemaForge
