import SchemaForge.Value.Basic

/-!
# Knots

A document in which a list or a mapping occurs within itself is no tree. It is a knot: its lists and
mappings are nodes under numbers, and where a node holds another one, or itself, it has a link. A
link means something among the nodes of its knot only, so a part of a node becomes a value of its
own when its links are followed.

`unroll` gives what a value is at its top, with parts that are values of their own. `spread` makes a
tree of a value, in which a link is left only where a node holds a node around it. Values without
knots are left alone by both.
-/

namespace SchemaForge.Value

/-- What a link among `nodes` leads to, as a value of its own: the knot of that number. -/
def follow (nodes : List Value) : Value → Value
  | .link n _ => .knot n nodes
  | v => v

/-- A part of one of `nodes`, as a value of its own (`follow`). A pair is no node, but its parts may
be links. -/
def within (nodes : List Value) : Value → Value
  | .tuple items => .tuple (items.map (follow nodes))
  | v => follow nodes v

/-- The entries of one of `nodes`, with values of their own (`within`); keys have no links. -/
def entriesWithin (nodes : List Value) (entries : List (Scalar × Value)) :
    List (Scalar × Value) :=
  entries.map fun e => (e.1, within nodes e.2)

/-- What a value is at its top, with parts that are values of their own. This is how every operation
of `SchemaForge.Value` looks at a knot. -/
def unroll : Value → Value
  | .knot n nodes =>
    match nodes.getD n .null with
    | .list items => .list (items.map (within nodes))
    | .mapping entries => .mapping (entriesWithin nodes entries)
    | v => v
  | v => v

/-- The entries of a mapping, with values of their own, by `unroll`. -/
def entries? (v : Value) : Option (List (Scalar × Value)) :=
  match v.unroll with
  | .mapping entries => some entries
  | _ => none

/-- The items of a list, also of one of fixed length, with values of their own, by `unroll`. -/
def listItems? (v : Value) : Option (List Value) :=
  match v.unroll with
  | .list items => some items
  | .tuple items => some items
  | _ => none

/-- A mapping with entries that are changed by `f`. In a knot it is the node that changes, and so
for every part that links to it. -/
def changeEntries? (f : List (Scalar × Value) → List (Scalar × Value)) : Value → Option Value
  | .mapping entries => some (.mapping (f entries))
  -- The other nodes keep their links, which lead to the changed node from now on.
  | .knot n nodes =>
    match nodes.getD n .null with
    | .mapping entries => some (.knot n (nodes.set n (.mapping (f entries))))
    | _ => none
  | _ => none

mutual

/-- The number of values that make up a value; `spread` needs no more steps than that. -/
def size : Value → Nat
  | .scalar _ => 1
  | .list items => 1 + sizeAll items
  | .tuple items => 1 + sizeAll items
  | .mapping entries => 1 + sizeEntries entries
  | .set _ => 1
  | .function _ arguments => 1 + sizeAll arguments
  | .call _ arguments => 1 + sizeAll arguments
  | .knot _ nodes => 1 + sizeAll nodes
  | .link .. => 1

/-- The number of values that make up several values. -/
def sizeAll : List Value → Nat
  | [] => 0
  | v :: rest => size v + sizeAll rest

/-- The number of values that make up the values of entries. -/
def sizeEntries : List (Scalar × Value) → Nat
  | [] => 0
  | (_, v) :: rest => size v + sizeEntries rest

end

/-- The tree of a part of `nodes` that stands within those of the numbers in `outer`, to the depth
of `fuel`. A link to one of `outer` stays, and any other one is replaced by its node. -/
def spreadIn (fuel : Nat) (nodes : List Value) (outer : List Nat) (v : Value) : Value :=
  match fuel with
  | 0 => v
  | fuel + 1 =>
    let part := spreadIn fuel nodes outer
    match v with
    | .list items => .list (items.map part)
    | .tuple items => .tuple (items.map part)
    | .mapping entries => .mapping (entries.map fun e => (e.1, part e.2))
    | .function name arguments => .function name (arguments.map part)
    | .call path arguments => .call path (arguments.map part)
    -- A knot within a node has links of its own, so the numbers around it are forgotten.
    | .knot n nodes => spreadIn fuel nodes [n] (nodes.getD n .null)
    | .link n keyed =>
      if outer.contains n then .link n keyed
      else spreadIn fuel nodes (n :: outer) (nodes.getD n .null)
    | v => v

/-- The tree of a value. On the way down to any part every node is met once at most, so the way is
no longer than the value is large, and `size` is enough fuel for `spreadIn`. -/
def spread (v : Value) : Value := spreadIn v.size [] [] v

end SchemaForge.Value
