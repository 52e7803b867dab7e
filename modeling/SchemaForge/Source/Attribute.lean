import SchemaForge.Source.Fragment
import SchemaForge.Source.Literal

/-!
# Attributes as source text

An attribute is a call of the constructor of its kind, such as `S.String()`, in `S.Optional(…)`
where its tree lists it as optional. Trees of attributes span several lines and are written from
column zero. Relations are never optional.
-/

namespace SchemaForge

namespace Source

/-- A call of a constructor; empty arguments are left out, as those of `options` are where nothing
is set. -/
def construct (constructor : String) (arguments : List String) : String :=
  builderName ++ "." ++ constructor ++ "("
    ++ Text.join ", " (arguments.filter (!·.isEmpty)) ++ ")"

/-- An expression, as an optional attribute if so wanted. -/
def wrapOptional (expression : String) (optional : Bool) : String :=
  if optional then construct "Optional" [expression] else expression

/-- The value that the one clause of a condition demands of `id`, if it is the clause `["id", "=",
value]`; `idCondition` is the condition of it. -/
def demandedId? (condition : Value) : Option Value :=
  match condition.listItems? with
  | some [clause] =>
    match clause.listItems? with
    | some [field, operator, id] =>
      if field.same (.str "id") && operator.same (.str "=") then some id else none
    | _ => none
  | _ => none

/-- The id by which a relation selects its one member, if that is all that it says (the by-id
shorthand in section 3 of the specification). -/
def relationId? (cardinality : Value) (query : Query) : Option Value :=
  if cardinality.same (.str "one") && query.limit.isNull && query.order.isNull then
    demandedId? query.condition
  else none

/-- The object that describes a query: only the fields that are set, each `embedded` or a
`literal`. -/
def subquery (q : Query) : Encoder String := do
  -- The fields stand in this order, whatever order they were given in.
  let condition ← if q.condition.isNull then pure []
    else pure [("where", ← embedded q.condition none)]
  let limit ← if q.limit.isNull then pure [] else pure [("limit", ← literal q.limit)]
  let order ← if q.order.isNull then pure [] else pure [("order", ← embedded q.order none)]
  return inlineObject (condition ++ limit ++ order)

/-- A relation, in the compact form where `relationId?` finds an id, and with a `subquery`
otherwise. -/
def relation (cardinality target : Value) (query : Query) : Encoder String := do
  -- The target is quoted first, so its error comes before those of the query.
  let target ← quote target
  match relationId? cardinality query with
  | some id => return construct "RelationById" [target, ← literal id]
  | none =>
    let constructor := if cardinality.same (.str "one") then "RelationOne" else "RelationMany"
    return construct constructor [target, ← subquery query]

/-- A primitive attribute, by the constructor that `primitiveConstructors` has for its kind; a kind
without one is an error. -/
def primitive (kind : Value) (o : Options) : Encoder String := do
  -- A kind is looked up in a table, which breaks down on lists and mappings.
  if !kind.isHashable then throw (.broken .wrongKind)
  let constructor? := match kind with
    | .str k => Entries.get? k primitiveConstructors
    | _ => none
  match constructor? with
  | some constructor => return construct constructor [← options o]
  | none => throw (.refused (.kind kind.text))

/-- A tree from the texts of its attributes, each with its quoted key. Without attributes it is
written on one line. -/
def tree (constructor : String) (members : List String) : String :=
  if members.isEmpty then construct constructor ["\x7b\x7d"]
  else Fragment.block (builderName ++ "." ++ constructor ++ "(\x7b") members "\x7d)"

end Source

mutual

/-- An attribute as source text (section 4.2 of the specification); `optional` says whether its tree
lists it as optional. A relation is never wrapped. -/
def Attribute.toSource (optional : Bool) : Attribute → Encoder String
  | .relation cardinality target query => Source.relation cardinality target query
  | .primitive kind o => do
    return Source.wrapOptional (← Source.primitive kind o) optional
  | .set items o => do
    let items ← items.toSource false
    return Source.wrapOptional (Source.construct "Set" [items, ← Source.options o]) optional
  | .record properties keys => do
    return Source.wrapOptional (Source.tree "Record" (← membersToSource keys properties)) optional
  | .foreign v => throw (.refused (.kind v.kindName))

/-- The lines of a tree: each attribute with its key and a comma. `keys` are the optional keys of
the tree. -/
def membersToSource (keys : List String) : List (String × Attribute) → Encoder (List String)
  | [] => pure []
  | (key, a) :: rest => do
    let text ← a.toSource (keys.contains key)
    let line := (← quote (.str key)) ++ ": " ++ text ++ ","
    return line :: (← membersToSource keys rest)

end

/-- A tree of attributes as source text. -/
def AttributeTree.toSource (constructor : String) (t : AttributeTree) : Encoder String := do
  return Source.tree constructor (← membersToSource t.optional t.properties)

end SchemaForge
