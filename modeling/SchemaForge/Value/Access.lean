import SchemaForge.Number.Reading
import SchemaForge.Value.Display
import SchemaForge.Value.Equality

/-!
# Access to parts of values

The operations that take a value apart when its shape is not known beforehand. Each either gives a
part or breaks down with a `Fault`, which says what kind of operation the value does not support.
-/

namespace SchemaForge

/-- What goes wrong when an operation meets a value that cannot take it. The operations of `Value`
break down with these, and no caller foresees them. -/
inductive Fault where
  /-- The kind of value does not support the operation. -/
  | wrongKind
  /-- The kind of value supports the operation, but this value does not. -/
  | badValue
  /-- A number has no counterpart of the wanted kind. -/
  | outOfRange
  /-- The kind of value has no member of the wanted name. -/
  | noMember
  /-- The mapping has no entry under the key. -/
  | noEntry
  /-- The sequence has no item at the index. -/
  | noItem
  /-- Bytes are not the UTF-8 form of a text. -/
  | notText
  /-- The transport broke down in a way it does not announce. -/
  | transport
  /-- A value is read within itself without an end. -/
  | endless
  deriving DecidableEq, Repr

namespace Value

/-- The parts that a loop over a value visits: items, characters, bytes, keys, members. A mapping
gives its keys only. -/
def elements (v : Value) : Except Fault (List Value) :=
  match v.unroll with
  | .list items => .ok items
  | .tuple items => .ok items
  | .mapping entries => .ok (entries.map fun e => .scalar e.1)
  | .set members => .ok (members.map .scalar)
  | .str s => .ok (s.toList.map fun c => .str (String.singleton c))
  | .scalar (.bytes b) => .ok (b.map fun x => .int x.toNat)
  | _ => .error .wrongKind

/-- The items of a value that is a sequence: texts and byte strings are sequences too, but mappings
and sets are not, unlike for `elements`. -/
def items? (v : Value) : Option (List Value) :=
  match v.unroll with
  | .list items => some items
  | .tuple items => some items
  | .str s => some (s.toList.map fun c => .str (String.singleton c))
  | .scalar (.bytes b) => some (b.map fun x => .int x.toNat)
  | _ => none

/-- The value under a text key of a mapping, found by `Scalar.agrees`. -/
def field? (name : String) (entries : List (Scalar × Value)) : Option Value :=
  Entries.get? (.str name) entries

/-- The value under a text key, absent if there is none; only mappings have this member, and `item`
is for keys that have to be there. -/
def get (v : Value) (name : String) : Except Fault Value :=
  match v.unroll with
  | .mapping entries => .ok ((field? name entries).getD .null)
  | _ => .error .noMember

/-- The value under a text key, which has to be there, unlike for `get`. -/
def item (v : Value) (name : String) : Except Fault Value :=
  match v.unroll with
  | .mapping entries =>
    match field? name entries with
    | some x => .ok x
    | none => .error .noEntry
  | _ => .error .wrongKind

/-- Whether `part` occurs in `whole`. -/
def occursIn (part : List Char) : List Char → Bool
  | [] => part.isEmpty
  | c :: rest => part.isPrefixOf (c :: rest) || occursIn part rest

/-- Whether a text is among the keys, items or members of a value, or part of a text
(`occursIn`). -/
def contains (v : Value) (name : String) : Except Fault Bool :=
  match v.unroll with
  | .mapping entries => .ok (Entries.has (.str name) entries)
  | .list items => .ok (items.any (same (.str name)))
  | .tuple items => .ok (items.any (same (.str name)))
  | .set members => .ok (members.any (Scalar.agrees (.str name)))
  | .str s => .ok (occursIn name.toList s.toList)
  | _ => .error .wrongKind

/-- The value with `x` under a text key; only mappings can take it. In a knot, `changeEntries?`
changes the node for all that hold it. -/
def put (v : Value) (name : String) (x : Value) : Except Fault Value :=
  match v.changeEntries? (Entries.put (.str name) x) with
  | some changed => .ok changed
  | none => .error .wrongKind

/-- The value without the entry under a text key, if there is one; only mappings have this
member. -/
def discard (v : Value) (name : String) : Except Fault Value :=
  match v.changeEntries? (Entries.remove (.str name)) with
  | some changed => .ok changed
  | none => .error .noMember

/-- The value without the entry under a text key, which has to be there. -/
def delete (v : Value) (name : String) : Except Fault Value :=
  match v.entries? with
  | some entries =>
    if Entries.has (.str name) entries then v.discard name else .error .noEntry
  | none => .error .wrongKind

/-- The integer that a value stands for: a truth value as 0 or 1, a finite number without its
fraction, and a text or bytes by reading them with `Number.readInt?`. -/
def toInt : Value → Except Fault Int
  | .bool b => .ok (Scalar.ofBool b)
  | .int n => .ok n
  | .float x =>
    match x, x.truncate? with
    -- An infinity is out of range, while a NaN is a bad value.
    | .infinite _, _ => .error .outOfRange
    | _, some n => .ok n
    | _, none => .error .badValue
  | .str s =>
    match Number.readInt? s.toList with
    | some n => .ok n
    | none => .error .badValue
  | .scalar (.bytes b) =>
    match Number.readInt? (b.map fun x => if x < 128 then Char.ofNat x.toNat else '?') with
    | some n => .ok n
    | none => .error .badValue
  | _ => .error .wrongKind

end Value

end SchemaForge
