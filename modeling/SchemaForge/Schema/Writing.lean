import SchemaForge.Schema.Basic
import SchemaForge.Value.Access

/-!
# Documents from schemas

The schema document of a schema (section 3 of the specification), in the shape in which
`Schema.ofValue` reads it. Optional keys are listed in the order of the attributes, and keys without
an attribute are left out.
-/

namespace SchemaForge

/-- The document of a default: `defaultOfValue` reads it back. -/
def defaultToValue : Value → Value
  | .function name arguments =>
    .record [("func", .str name), ("args", if arguments.isEmpty then .null else .list arguments)]
  | v => v

/-- The document of settings: only what is set, as `Options.ofValue` reads it. -/
def Options.toValue (o : Options) : Value :=
  .record ((if o.nullable.isNull then [] else [("nullable", o.nullable)])
    ++ match o.default with
      | none => []
      | some d => [("default", defaultToValue d)])

/-- The fields of a query that are set. -/
def Query.fields (q : Query) : List (String × Value) :=
  [("where", q.condition), ("limit", q.limit), ("order", q.order)].filter (!·.2.isNull)

/-- The list of the optional keys that have an attribute, in the order of the attributes; other keys
are lost. -/
def optionalToValue (properties : List (String × Attribute)) (optional : List String) : Value :=
  .list (((Entries.keys properties).filter optional.contains).map .str)

mutual

/-- The document of an attribute, in the shape in which `Attribute.ofValue` reads it. What is no
attribute has none. -/
def Attribute.toValue : Attribute → Except Fault Value
  | .primitive kind options => .ok (.record [("type", kind), ("options", options.toValue)])
  | .set items options => do
    return .record [("type", .str "set"), ("items", ← items.toValue), ("options", options.toValue)]
  | .record properties optional => do
    return .record [("type", .str "record"),
      ("properties", .record (← propertiesToValues properties)),
      ("optional", optionalToValue properties optional)]
  | .relation cardinality target query =>
    .ok (.record [("type", .str "query"), ("cardinality", cardinality),
      ("query", .record (("collectionName", target) :: query.fields))])
  | .foreign _ => .error .noMember

/-- The documents of several attributes under their keys. -/
def propertiesToValues : List (String × Attribute) → Except Fault (List (String × Value))
  | [] => .ok []
  | (key, a) :: rest => do
    let v ← a.toValue
    return (key, v) :: (← propertiesToValues rest)

end

/-- The document of a tree. -/
def AttributeTree.toValue (t : AttributeTree) : Except Fault Value := t.toRecord.toValue

/-- The document of a collection. -/
def Collection.toValue (c : Collection) : Except Fault Value := do
  let schema ← c.schema.toValue
  return .record (("schema", schema) :: if c.rules.isNull then [] else [("rules", c.rules)])

/-- The documents of several collections under their names. -/
def collectionsToValues : List (String × Collection) → Except Fault (List (String × Value))
  | [] => .ok []
  | (name, c) :: rest => do
    let v ← c.toValue
    return (name, v) :: (← collectionsToValues rest)

/-- The document of a schema, in the shape in which `Schema.ofValue` reads it. -/
def Schema.toValue (s : Schema) : Except Fault Value := do
  let collections ← collectionsToValues s.collections
  return .record [("version", .int s.version), ("collections", .record collections)]

end SchemaForge
