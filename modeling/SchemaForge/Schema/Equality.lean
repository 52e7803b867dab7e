import SchemaForge.Schema.Basic

/-!
# Equality of schemas

Two schemas are the same when they have the same version and the same collections under the same
names. The order of collections and attributes and the order of optional keys do not count.
-/

namespace SchemaForge

/-- The same keys, regardless of order. -/
def sameKeys (a b : List String) : Bool := a.all b.contains && b.all a.contains

/-- Equality of optional defaults, by `Value.same`. No default is the same as no default only, not
as the absent value. -/
def sameDefault : Option Value → Option Value → Bool
  | none, none => true
  | some v, some w => v.same w
  | _, _ => false

/-- Equality of settings. -/
def Options.same (a b : Options) : Bool :=
  a.nullable.same b.nullable && sameDefault a.default b.default

/-- Equality of queries. -/
def Query.same (a b : Query) : Bool :=
  a.condition.same b.condition && a.limit.same b.limit && a.order.same b.order

namespace Attribute

mutual

/-- Equality of attributes. -/
def same : Attribute → Attribute → Bool
  | .primitive k o, .primitive k' o' => k.same k' && o.same o'
  | .set i o, .set i' o' => same i i' && o.same o'
  | .record ps opt, .record ps' opt' =>
    ps.length == ps'.length && sameProperties ps ps' && sameKeys opt opt'
  | .relation c t q, .relation c' t' q' => c.same c' && t.same t' && q.same q'
  | .foreign v, .foreign v' => v.same v'
  | _, _ => false

/-- Whether every attribute is the same under its key in `others`. With as many attributes on both
sides this is equality without regard to order. -/
def sameProperties : List (String × Attribute) → List (String × Attribute) → Bool
  | [], _ => true
  | (k, a) :: rest, others =>
    (match Entries.get? k others with
      | some b => same a b
      | none => false) && sameProperties rest others

end

end Attribute

/-- Equality of trees. -/
def AttributeTree.same (a b : AttributeTree) : Bool := a.toRecord.same b.toRecord

/-- Equality of collections. -/
def Collection.same (a b : Collection) : Bool := a.schema.same b.schema && a.rules.same b.rules

/-- Equality of schemas, without regard to the order of collections, attributes and optional
keys. -/
def Schema.same (a b : Schema) : Bool :=
  a.version == b.version && a.collections.length == b.collections.length
    && a.collections.all fun (name, c) =>
      match Entries.get? name b.collections with
      | some d => c.same d
      | none => false

end SchemaForge
