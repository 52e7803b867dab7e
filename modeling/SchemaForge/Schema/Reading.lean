import SchemaForge.Report
import SchemaForge.Schema.Basic

/-!
# Schemas from documents

A schema document is a mapping with a version and its collections:

    version: 3
    collections:
      todos:
        schema: (type: record, properties: …, optional: […])
        rules: …

Keys that are not texts are taken by their text, and so are the names of kinds and targets. An
attribute's type is `record`, `set` or `query`, and any other type is taken for a primitive kind:
whether such a kind exists is a question for the writer of modules.
-/

namespace SchemaForge

/-- A part of a schema document that has to be a mapping. -/
inductive SchemaPart where
  /-- The document. -/
  | schema
  /-- The collections. -/
  | collections
  /-- One collection. -/
  | collection
  /-- The attribute tree of a collection. -/
  | collectionSchema
  /-- The attributes of a tree. -/
  | properties
  /-- The attribute under a key. -/
  | attribute (key : Option String)
  /-- The settings of an attribute. -/
  | options
  /-- The query of the relation under a key. -/
  | query (key : Option String)
  deriving DecidableEq

/-- A key as messages name it. -/
def keyName (key : Option String) : String := key.getD "None"

/-- What a part is called. -/
def SchemaPart.name : SchemaPart → String
  | .schema => "schema"
  | .collections => "collections"
  | .collection => "collection"
  | .collectionSchema => "collection schema"
  | .properties => "properties"
  | .attribute key => "attribute '" ++ keyName key ++ "'"
  | .options => "attribute options"
  | .query key => "query of '" ++ keyName key ++ "'"

/-- Why a document is not a schema. `Malformed.report` is what the user is told. -/
inductive Malformed where
  /-- A part is not a mapping. -/
  | notMapping (part : SchemaPart)
  /-- A default is a mapping that names no function. -/
  | noFunction
  /-- The attribute under a key has no type. -/
  | noType (key : Option String)
  /-- The items of the set under a key are not of a primitive kind. -/
  | compoundItems (key : Option String)
  /-- The relation under a key has no target. -/
  | noTarget (key : Option String)
  /-- The relation under a key has a cardinality that does not exist. -/
  | badCardinality (cardinality : Value) (key : Option String)

/-- The wording of a cause. -/
def Malformed.wording : Malformed → String
  | .notMapping part => part.name ++ " must be a mapping"
  | .noFunction => "function default is missing 'func'"
  | .noType _ => "attribute is missing required 'type'"
  | .compoundItems _ => "set items must be a primitive type"
  | .noTarget _ => "relation is missing 'collectionName'"
  | .badCardinality c _ => "relation cardinality must be 'one' or 'many', got " ++ c.display

/-- The field that a cause is about. -/
def Malformed.field : Malformed → Option String
  | .notMapping _ => none
  | .noFunction => some "default"
  | .noType key => key
  | .compoundItems key => key
  | .noTarget key => key
  | .badCardinality _ key => key

/-- What the user is told of a malformed document. -/
def Malformed.report (cause : Malformed) (document : Option String) : Report :=
  { wording := cause.wording, field := cause.field, document }

/-- The entries of a part that has to be a mapping, by `Value.entries?`; the error names the
part. -/
def entriesOf (part : SchemaPart) (v : Value) : Outcome Malformed (List (Scalar × Value)) :=
  match v.entries? with
  | some entries => .ok entries
  | none => refuse (.notMapping part)

/-- The value under a text key, absent if there is none. -/
def fieldOf (name : String) (entries : List (Scalar × Value)) : Value :=
  (Value.field? name entries).getD .null

/-- The default that a value describes: a mapping is a call of the function that it names, and any
other value stands for itself. The arguments may be anything that has `Value.elements`. -/
def defaultOfValue (v : Value) : Outcome Malformed Value :=
  match v.entries? with
  | some entries =>
    match fieldOf "func" entries with
    | .str name => do
      let arguments ← ((fieldOf "args" entries).orElse (.tuple [])).elements
      return .function name arguments
    | _ => refuse .noFunction
  | none => .ok v

/-- The settings that a value describes; the absent value describes none. Only a default tells being
absent from being the absent value. -/
def Options.ofValue (v : Value) : Outcome Malformed Options :=
  if v.isNull then .ok {}
  else do
    let entries ← entriesOf .options v
    match Value.field? "default" entries with
    | none => return { nullable := fieldOf "nullable" entries }
    | some d =>
      return { nullable := fieldOf "nullable" entries, default := some (← defaultOfValue d) }

/-- The keys in a list, as texts (`Value.text`), each one once. Whatever has elements counts as a
list, and what is not true as an empty one. -/
def optionalKeys (v : Value) : Except Fault (List String) := do
  -- A text has its characters as elements, and a mapping its keys.
  let keys ← (v.orElse (.tuple [])).elements
  return (keys.map Value.text).eraseDups

/-- The two cardinalities of a relation. -/
def cardinalities : List Value := [.str "one", .str "many"]

/-- The cardinality of a relation, `many` where nothing is said. It breaks down on a value that
cannot be looked up among `cardinalities`. -/
def cardinalityOf (entries : List (Scalar × Value)) (key : Option String) :
    Outcome Malformed Value :=
  let c := (Value.field? "cardinality" entries).getD (.str "many")
  if !c.isComparable then .error (.broken .wrongKind)
  else if cardinalities.any c.same then .ok c
  else refuse (.badCardinality c key)

/-- The relation that the entries of an attribute describe. Its target is taken by its text, and its
condition and order are carried as they are. -/
def relationOfEntries (entries : List (Scalar × Value)) (key : Option String) :
    Outcome Malformed Attribute := do
  let query ← entriesOf (.query key) (fieldOf "query" entries)
  let target := fieldOf "collectionName" query
  if !target.isTruthy then refuse (.noTarget key)
  -- The target is checked before the cardinality, and its error comes first.
  let cardinality ← cardinalityOf entries key
  return .relation cardinality (.str target.text)
    { condition := fieldOf "where" query
      limit := fieldOf "limit" query
      order := fieldOf "order" query }

/-- A primitive attribute is the only one that a set may hold. -/
def requirePrimitive (key : Option String) : Attribute → Outcome Malformed Unit
  | .primitive .. => .ok ()
  | _ => refuse (.compoundItems key)

/-- What is found under a key is smaller than the entries it was looked up in. -/
theorem sizeOf_lt_of_get? {name : Scalar} {entries : List (Scalar × Value)} {v : Value}
    (h : Entries.get? name entries = some v) : sizeOf v < sizeOf entries := by
  induction entries with
  | nil => simp [Entries.get?] at h
  | cons e rest ih =>
    obtain ⟨k, w⟩ := e
    simp only [Entries.get?] at h
    split at h
    · cases h
      simp only [List.cons.sizeOf_spec, Prod.mk.sizeOf_spec]
      omega
    · have := ih h
      simp only [List.cons.sizeOf_spec]
      omega

/-- What is found under a number is no larger than the list it was found in. -/
theorem sizeOf_lt_of_getElem? {nodes : List Value} {n : Nat} {v : Value}
    (h : nodes[n]? = some v) : sizeOf v < sizeOf nodes :=
  List.sizeOf_lt_of_mem (List.mem_of_getElem? h)

/-- How many links have to be followed at most among `nodes` before it is clear whether reading has
an end: each node may once be read as an attribute and once as a mapping of attributes. -/
def turnsOf (nodes : List Value) : Nat := 2 * nodes.length

mutual

/-- The attribute that a part of `nodes` under a key describes, by its `type`: a record, a set, a
query, or else a primitive attribute of that kind. Of `turns` links that may be followed each one
takes one away, so that reading a record within itself comes to an end. -/
def attributeOfPart (nodes : List Value) (turns : Nat) (key : Option String) :
    Value → Outcome Malformed Attribute
  | .mapping entries => do
    -- The fields are values of their own, while what is read further down keeps its links.
    let fields := Value.entriesWithin nodes entries
    let type := fieldOf "type" fields
    if !type.isTruthy then refuse (.noType key)
    if type.same (.str "record") then
      let properties ← match _h : Value.field? "properties" entries with
        | some v => propertiesOfPart nodes turns v
        | none => pure []
      return .record properties (← optionalKeys (fieldOf "optional" fields))
    else if type.same (.str "set") then
      let items ← match _h : Value.field? "items" entries with
        | some v => attributeOfPart nodes turns key v
        | none => refuse (.notMapping (.attribute key))
      requirePrimitive key items
      return .set items (← Options.ofValue (fieldOf "options" fields))
    else if type.same (.str "query") then
      relationOfEntries fields key
    else
      -- Any other type is a kind, known or not; the encoder reports those that it does not know.
      return .primitive (.str type.text) (← Options.ofValue (fieldOf "options" fields))
  | .knot n nodes =>
    match _h : nodes[n]? with
    | some v => attributeOfPart nodes (turnsOf nodes) key v
    | none => refuse (.notMapping (.attribute key))
  | .link n _ =>
    match turns with
    -- More links than nodes in both roles: this value lies within itself.
    | 0 => .error (.broken .endless)
    | turns + 1 =>
      match _h : nodes[n]? with
      | some v => attributeOfPart nodes turns key v
      | none => refuse (.notMapping (.attribute key))
  | _ => refuse (.notMapping (.attribute key))
termination_by v => (max (sizeOf v) (sizeOf nodes), turns, sizeOf v, 0)
decreasing_by
  · have := sizeOf_lt_of_get? _h
    simp only [Prod.lex_def, Value.mapping.sizeOf_spec, true_and]
    omega
  · have := sizeOf_lt_of_get? _h
    simp only [Prod.lex_def, Value.mapping.sizeOf_spec, true_and]
    omega
  · have := sizeOf_lt_of_getElem? _h
    simp only [Prod.lex_def, Value.knot.sizeOf_spec]
    omega
  · have := sizeOf_lt_of_getElem? _h
    simp only [Prod.lex_def]
    omega

/-- The attributes that a part of `nodes` describes: none where it does not count as true. -/
def propertiesOfPart (nodes : List Value) (turns : Nat) :
    Value → Outcome Malformed (List (String × Attribute))
  | .mapping entries => propertiesOfEntries nodes turns entries []
  | .knot n nodes =>
    match _h : nodes[n]? with
    | some v => propertiesOfPart nodes (turnsOf nodes) v
    | none => .ok []
  | .link n _ =>
    match turns with
    | 0 => .error (.broken .endless)
    | turns + 1 =>
      match _h : nodes[n]? with
      | some v => propertiesOfPart nodes turns v
      | none => .ok []
  | v => if v.isTruthy then refuse (.notMapping .properties) else .ok []
termination_by v => (max (sizeOf v) (sizeOf nodes), turns, sizeOf v, 1)
decreasing_by
  · simp only [Prod.lex_def, Value.mapping.sizeOf_spec, true_and]
    omega
  · have := sizeOf_lt_of_getElem? _h
    simp only [Prod.lex_def, Value.knot.sizeOf_spec]
    omega
  · have := sizeOf_lt_of_getElem? _h
    simp only [Prod.lex_def]
    omega

/-- The attributes that entries of `nodes` describe, added to those in `done`; keys are taken by
their texts, and a later attribute takes the place of an earlier one with the same text. -/
def propertiesOfEntries (nodes : List Value) (turns : Nat) (entries : List (Scalar × Value))
    (done : List (String × Attribute)) : Outcome Malformed (List (String × Attribute)) :=
  match entries with
  | [] => .ok done
  | (k, v) :: rest => do
    let a ← attributeOfPart nodes turns (some k.text) v
    propertiesOfEntries nodes turns rest (Entries.put k.text a done)
termination_by (max (sizeOf entries) (sizeOf nodes), turns, sizeOf entries, 2)
decreasing_by
  · simp only [Prod.lex_def, List.cons.sizeOf_spec, Prod.mk.sizeOf_spec, true_and]
    omega
  · simp only [Prod.lex_def, List.cons.sizeOf_spec, true_and]
    omega

end

/-- The attribute that a value under a key describes, as `attributeOfPart` reads it. Outside a knot
there are no links, and no turns are needed. -/
def Attribute.ofValue (key : Option String) (v : Value) : Outcome Malformed Attribute :=
  attributeOfPart [] 0 key v

/-- The tree that a mapping of attributes and a list of optional keys describe, by
`propertiesOfPart` and `optionalKeys`. -/
def AttributeTree.ofValues (properties optional : Value) : Outcome Malformed AttributeTree := do
  let properties ← propertiesOfPart [] 0 properties
  return ⟨properties, ← optionalKeys optional⟩

/-- The collection that a value describes: its tree is read by `AttributeTree.ofValues`, and its
rules are carried as they are. -/
def Collection.ofValue (v : Value) : Outcome Malformed Collection := do
  let entries ← entriesOf .collection v
  let schema ← entriesOf .collectionSchema (fieldOf "schema" entries)
  let tree ← AttributeTree.ofValues (fieldOf "properties" schema) (fieldOf "optional" schema)
  return ⟨tree, fieldOf "rules" entries⟩

/-- The collections that entries describe under the texts of their keys, added to those in
`done`. -/
def collectionsOfEntries :
    List (Scalar × Value) → List (String × Collection) →
      Outcome Malformed (List (String × Collection))
  | [], done => .ok done
  | (k, v) :: rest, done => do
    collectionsOfEntries rest (Entries.put k.text (← Collection.ofValue v) done)

/-- The schema that a document describes, in the shape of section 3 of the specification; the absent
value describes none. `Schema.toValue` writes the document. -/
def Schema.ofValue (v : Value) : Outcome Malformed (Option Schema) :=
  if v.isNull then .ok none
  else do
    let document ← entriesOf .schema v
    let collections ← entriesOf .collections
      ((fieldOf "collections" document).orElse (.mapping []))
    -- The version is looked at behind the collections, but before what is in them.
    let version ← ((Value.field? "version" document).getD (.int 0)).toInt
    return some ⟨version, ← collectionsOfEntries collections []⟩

end SchemaForge
