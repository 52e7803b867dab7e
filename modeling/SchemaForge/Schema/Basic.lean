import SchemaForge.Value.Equality

/-!
# Schemas

A schema names collections; a collection has a tree of attributes and access rules. An attribute
is of a primitive kind, a set of such, a record with a tree of its own, or a relation to another
collection.

Whether an attribute is optional is not its own property: every tree lists the keys that are
optional in it. An absent setting is the absent value; only a default distinguishes being absent
from being the absent value.
-/

namespace SchemaForge

/-- The settings of a primitive attribute or a set (`ValueOptions` in section 3 of the
specification). -/
structure Options where
  /-- Whether the attribute may be null; the absent value where nothing is said. -/
  nullable : Value := .null
  /-- The default, which may be the absent value. -/
  default : Option Value := none
  deriving Inhabited

/-- Which members of the target collection a relation selects. What is not said is the absent
value. -/
structure Query where
  /-- The filter clauses. -/
  condition : Value := .null
  /-- How many members at most. -/
  limit : Value := .null
  /-- The order of the members. -/
  order : Value := .null
  deriving Inhabited

/-- An attribute of a collection or of a record, in one of the four variants of section 3 of the
specification. Whether it is optional is said by the tree that it is in. -/
inductive Attribute where
  /-- A value of a kind such as `string` or `date`. -/
  | primitive (kind : Value) (options : Options)
  /-- A set of primitive values. -/
  | set (items : Attribute) (options : Options)
  /-- Attributes of its own, in order, and the keys of the optional ones. -/
  | record (properties : List (String × Attribute)) (optional : List String)
  /-- Members of another collection: `one` or `many` of them. -/
  | relation (cardinality target : Value) (query : Query)
  /-- Anything else that stands where an attribute belongs. -/
  | foreign (value : Value)
  deriving Inhabited

/-- The attributes of one level, in order, and the keys of the optional ones. Equality does not
count the order of `optional` (`Schema.same`). -/
structure AttributeTree where
  /-- The attributes by key. -/
  properties : List (String × Attribute)
  /-- The optional keys, each one once; a key need not have an attribute. -/
  optional : List String
  deriving Inhabited

/-- The tree without attributes. -/
def AttributeTree.empty : AttributeTree := ⟨[], []⟩

/-- A record attribute with a given tree. -/
def AttributeTree.toRecord (t : AttributeTree) : Attribute := .record t.properties t.optional

/-- A collection: its attributes and the rules that guard it. -/
structure Collection where
  /-- The attributes. -/
  schema : AttributeTree
  /-- The access rules, carried as they are; the absent value where there are none. -/
  rules : Value := .null
  deriving Inhabited

/-- The collections of a database at a version. `Schema.ofValue` reads it of a document, and
`encodeModule` writes its module. -/
structure Schema where
  /-- The version of the last migration. -/
  version : Int
  /-- The collections by name, in order. -/
  collections : List (String × Collection)
  deriving Inhabited

/-- The kinds of primitive attribute that have a constructor, with its name; every other kind is an
error of `encodeModule`. -/
def primitiveConstructors : List (String × String) :=
  [("string", "String"), ("boolean", "Boolean"), ("number", "Number"), ("date", "Date")]

end SchemaForge
