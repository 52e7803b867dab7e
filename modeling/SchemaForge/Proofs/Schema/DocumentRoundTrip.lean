import SchemaForge.Proofs.Schema.ReadForm
import SchemaForge.Schema.Writing

/-!
# The round trip of a schema through its document

A schema in the form of what is read has a document of the shape in section 3 of the specification,
and that is read back as the schema, but for optional keys without an attribute (`Schema.trimmed`).
These are gone after one round, so the document of what is read back is the same document.
-/

namespace SchemaForge

/-! ## What a document keeps -/

/-- The optional keys that a document keeps, in the order of the attributes: those that have an
attribute in the tree. -/
def listedOptional (properties : List (String × Attribute)) (optional : List String) :
    List String :=
  (Entries.keys properties).filter optional.contains

mutual

/-- The attribute with the optional keys of all its trees cut down to `listedOptional`, which its
document names. -/
def Attribute.trimmed : Attribute → Attribute
  | .record properties optional =>
    .record (trimmedProperties properties) (listedOptional properties optional)
  | .set items o => .set items.trimmed o
  | a => a

/-- Each of several attributes is trimmed, under the key it has. -/
def trimmedProperties : List (String × Attribute) → List (String × Attribute)
  | [] => []
  | (key, a) :: rest => (key, a.trimmed) :: trimmedProperties rest

end

/-- The tree with its optional keys, and those of the trees in it, cut down to the keys of their
attributes. -/
def AttributeTree.trimmed (t : AttributeTree) : AttributeTree :=
  ⟨trimmedProperties t.properties, listedOptional t.properties t.optional⟩

/-- The collection with the optional keys of all its trees cut down to keys of their own. -/
def Collection.trimmed (c : Collection) : Collection := { c with schema := c.schema.trimmed }

/-- The schema with the optional keys of all its trees cut down to the keys of their attributes; all
else is kept. -/
def Schema.trimmed (s : Schema) : Schema :=
  { s with collections := s.collections.map fun p => (p.1, p.2.trimmed) }

/-- The function `listedOptional` holds the optional keys that have an attribute. -/
theorem mem_listedOptional {properties : List (String × Attribute)} {optional : List String}
    {key : String} :
    key ∈ listedOptional properties optional ↔
      key ∈ optional ∧ key ∈ Entries.keys properties := by
  rw [listedOptional, List.mem_filter, List.contains_iff_mem, and_comm]

/-- Trimming keeps the keys of attributes and their order. -/
theorem keys_trimmedProperties (properties : List (String × Attribute)) :
    Entries.keys (trimmedProperties properties) = Entries.keys properties := by
  induction properties with
  | nil => rfl
  | cons p properties ih =>
    rw [trimmedProperties, Entries.keys, List.map_cons]
    exact congrArg (p.1 :: ·) ih

/-- What a document keeps is kept again, so that one round of writing and reading is enough. -/
theorem listedOptional_trimmed (properties : List (String × Attribute)) (optional : List String) :
    listedOptional (trimmedProperties properties) (listedOptional properties optional)
      = listedOptional properties optional := by
  rw [listedOptional, keys_trimmedProperties, listedOptional]
  refine List.filter_congr fun key hkey => ?_
  rw [Bool.eq_iff_iff, List.contains_iff_mem, List.contains_iff_mem, List.mem_filter,
    List.contains_iff_mem, and_iff_right hkey]

mutual

/-- An attribute and what its document keeps of it have the same document. -/
theorem Attribute.toValue_trimmed : ∀ a : Attribute, a.trimmed.toValue = a.toValue
  | .primitive kind o => rfl
  | .set items o => by
    rw [Attribute.trimmed, Attribute.toValue, Attribute.toValue_trimmed items, Attribute.toValue]
  | .record properties optional => by
    rw [Attribute.trimmed, Attribute.toValue, propertiesToValues_trimmed properties,
      Attribute.toValue, optionalToValue, ← listedOptional, listedOptional_trimmed, optionalToValue,
      ← listedOptional]
  | .relation cardinality target q => rfl
  | .foreign v => rfl

/-- Attributes and what their documents keep of them have the same documents, key by key. -/
theorem propertiesToValues_trimmed : ∀ properties : List (String × Attribute),
    propertiesToValues (trimmedProperties properties) = propertiesToValues properties
  | [] => rfl
  | (key, a) :: rest => by
    rw [trimmedProperties, propertiesToValues, Attribute.toValue_trimmed a,
      propertiesToValues_trimmed rest, propertiesToValues]

end

/-! ## Documents read back -/

section ReadBack

variable {o : Options} {a : Attribute} {ps : List (String × Attribute)} {c : Collection}
  {s : Schema}

/-- A default that was read is read back from its document: a call by its name and arguments, and
anything else as it is. -/
theorem defaultOfValue_toValue {d : Value} (h : d.entries? = none) :
    defaultOfValue (defaultToValue d) = .ok d := by
  cases d with
  | function name arguments =>
    cases arguments with
    | nil => rfl
    | cons x rest => rfl
  | _ =>
    rw [defaultToValue, defaultOfValue, h]
    simp

/-- Settings in the form of what is read (`Options.IsRead`) are read back from their document. -/
theorem Options.ofValue_written (h : o.IsRead) : Options.ofValue o.toValue = .ok o := by
  obtain ⟨nullable, default⟩ := o
  have hnull : nullable.isNull = true → nullable = .null := Value.eq_null_of_isNull
  unfold Options.toValue
  -- A setting that is null is not written, and a missing one is read as null.
  cases hn : nullable.isNull with
  | true =>
    obtain rfl := hnull hn
    cases default with
    | none => rfl
    | some d =>
      show Except.bind (defaultOfValue (defaultToValue d)) _ = _
      rw [defaultOfValue_toValue (h d rfl)]
      rfl
  | false =>
    cases default with
    | none => rfl
    | some d =>
      show Except.bind (defaultOfValue (defaultToValue d)) _ = _
      rw [defaultOfValue_toValue (h d rfl)]
      rfl

/-- The document of an attribute is a mapping without links at its top, and what is read of it is
the attribute `trimmed`. -/
def Attribute.IsReadBack (a : Attribute) : Prop :=
  ∃ fields, a.toValue = .ok (.record fields) ∧
    ∀ key, attributeOfPart [] 0 key (.record fields) = .ok a.trimmed

/-- For two texts, `Value.same` decides whether they are equal. -/
theorem same_str (s t : String) : (Value.str s).same (.str t) = decide (s = t) := by
  rw [Bool.eq_iff_iff, decide_eq_true_eq]
  constructor
  · intro h
    cases Value.eq_str_of_same h
    rfl
  · rintro rfl
    exact decide_eq_true rfl

/-- An attribute of a kind that is not reserved is read back: its type is taken for its kind
again. -/
theorem isReadBack_primitive {kind : String} (hk : kind ∉ reservedTypes) (ho : o.IsRead) :
    (Attribute.primitive (.str kind) o).IsReadBack := by
  refine ⟨_, rfl, fun key => ?_⟩
  -- The document is kept closed: of its fields only the two values are used.
  generalize hfs : [("type", Value.str kind), ("options", o.toValue)] = fields
  have hfields : Value.entriesWithin [] (textEntries fields) = textEntries fields := by
    rw [← hfs]
    rfl
  have htype : fieldOf "type" (textEntries fields) = .str kind := by
    rw [← hfs]
    rfl
  have hoptions : fieldOf "options" (textEntries fields) = o.toValue := by
    rw [← hfs]
    rfl
  simp only [reservedTypes, List.mem_cons, List.not_mem_nil, or_false, not_or] at hk
  obtain ⟨hempty, hrecord, hset, hquery⟩ := hk
  have htruthy : (Value.str kind).isTruthy = true := by
    simpa [Value.isTruthy, Value.content, Scalar.isTruthy] using hempty
  rw [Value.record_eq, attributeOfPart]
  dsimp only
  rw [hfields, htype, htruthy, same_str, same_str, same_str, decide_eq_false hrecord,
    decide_eq_false hset, decide_eq_false hquery, hoptions, Options.ofValue_written ho]
  rfl

/-- A set of primitive attributes `IsReadBack`: its document is read as the same set. -/
theorem isReadBack_set {kind : String} {o' : Options} (hk : kind ∉ reservedTypes) (ho : o.IsRead)
    (ho' : o'.IsRead) : (Attribute.set (.primitive (.str kind) o) o').IsReadBack := by
  obtain ⟨items, hitems, hread⟩ := isReadBack_primitive hk ho
  refine ⟨[("type", .str "set"), ("items", .record items), ("options", o'.toValue)], ?_,
    fun key => ?_⟩
  · rw [Attribute.toValue, hitems]
    rfl
  rw [Value.record_eq, attributeOfPart]
  show Except.bind (attributeOfPart [] 0 key (.record items)) _ = _
  rw [hread]
  show Except.bind (Options.ofValue o'.toValue) _ = _
  rw [Options.ofValue_written ho']
  rfl

/-- Fields that are left out because they are absent are found to be absent, as if they had been
written. -/
theorem get?_filter_isNull {fields : List (String × Value)} (hn : (Entries.keys fields).Nodup)
    (name : String) : (Entries.get? name (fields.filter (!·.2.isNull))).getD .null
      = (Entries.get? name fields).getD .null := by
  induction fields with
  | nil => rfl
  | cons f fields ih =>
    obtain ⟨k, v⟩ := f
    rw [Entries.keys, List.map_cons, List.nodup_cons] at hn
    have hrest := ih hn.2
    rw [List.filter_cons, Entries.get?]
    cases hv : v.isNull with
    | true =>
      rw [if_neg (by simp), hrest]
      by_cases hk : k = name
      -- The field that is left out is the only one of its name.
      · subst hk
        have hmissing : Entries.get? k fields = none := Entries.get?_eq_none_iff.mpr hn.1
        rw [if_pos (beq_self_eq_true k), hmissing, Value.eq_null_of_isNull hv]
        rfl
      · rw [if_neg (by simpa using hk)]
    | false =>
      rw [if_pos (by simp), Entries.get?]
      split_ifs
      · rfl
      · exact hrest

/-- The fields of a query are found among those of its relation, as the target is under another
name. -/
theorem fieldOf_queryFields (q : Query) (target : Value) {name : String}
    (hname : name ≠ "collectionName") :
    fieldOf name (textEntries (("collectionName", target) :: q.fields))
      = (Entries.get? name
          [("where", q.condition), ("limit", q.limit), ("order", q.order)]).getD .null := by
  have hkeys : (Entries.keys [("where", q.condition), ("limit", q.limit), ("order", q.order)]).Nodup
      := by
    show ["where", "limit", "order"].Nodup
    decide
  rw [fieldOf, Value.field?, textEntries.get?, Entries.get?, if_neg (by simpa using hname.symm),
    Query.fields, get?_filter_isNull hkeys]

/-- The function `relationOfEntries` reads a relation back from the fields of its document, if its
cardinality is known and its target not empty. -/
theorem relationOfEntries_toValue {cardinality : Value} {target : String} (q : Query)
    (hc : cardinality ∈ cardinalities) (ht : target ≠ "") (key : Option String) :
    relationOfEntries (textEntries [("type", .str "query"), ("cardinality", cardinality),
      ("query", .record (("collectionName", .str target) :: q.fields))]) key
      = .ok (.relation cardinality (.str target) q) := by
  have htruthy : (Value.str target).isTruthy = true := by
    simpa [Value.isTruthy, Value.content, Scalar.isTruthy] using ht
  have htarget : fieldOf "collectionName"
      (textEntries (("collectionName", .str target) :: q.fields)) = .str target := rfl
  refine Outcome.bind_eq_ok.mpr ⟨textEntries (("collectionName", .str target) :: q.fields), rfl, ?_⟩
  dsimp only
  rw [htarget, htruthy, if_neg (by simp), fieldOf_queryFields q _ (by decide),
    fieldOf_queryFields q _ (by decide), fieldOf_queryFields q _ (by decide)]
  refine Outcome.bind_eq_ok.mpr ⟨cardinality, ?_, rfl⟩
  simp only [cardinalities, List.mem_cons, List.not_mem_nil, or_false] at hc
  rcases hc with rfl | rfl <;> rfl

/-- A relation is read back, if its cardinality is known and its target not empty. -/
theorem isReadBack_relation {cardinality : Value} {target : String} (q : Query)
    (hc : cardinality ∈ cardinalities) (ht : target ≠ "") :
    (Attribute.relation cardinality (.str target) q).IsReadBack := by
  refine ⟨_, rfl, fun key => ?_⟩
  have hread := relationOfEntries_toValue q hc ht key
  simp only [cardinalities, List.mem_cons, List.not_mem_nil, or_false] at hc
  rw [Value.record_eq, attributeOfPart]
  rcases hc with rfl | rfl <;> exact hread

/-- Attributes that are read back have documents, which are `Related` to what is kept of them. -/
theorem exists_propertiesToValues (h : ∀ p ∈ ps, p.2.IsReadBack) :
    ∃ fields, propertiesToValues ps = .ok fields ∧
      Entries.Related IsReadAs fields (trimmedProperties ps) := by
  induction ps with
  | nil => exact ⟨[], rfl, .nil⟩
  | cons p ps ih =>
    obtain ⟨key, a⟩ := p
    obtain ⟨document, hdocument, hread⟩ := h (key, a) List.mem_cons_self
    obtain ⟨fields, hfields, hrelated⟩ := ih fun q hq => h q (List.mem_cons_of_mem _ hq)
    refine ⟨(key, .record document) :: fields, ?_, .cons ⟨rfl, hread _⟩ hrelated⟩
    rw [propertiesToValues, hdocument, hfields]
    rfl

/-- Attributes under distinct keys are read back together from a mapping of their documents. -/
theorem propertiesOfPart_of_trimmed {fields : List (String × Value)} (hn : (Entries.keys ps).Nodup)
    (h : Entries.Related IsReadAs fields (trimmedProperties ps)) :
    propertiesOfPart [] 0 (.record fields) = .ok (trimmedProperties ps) := by
  refine (propertiesOfPart_record_iff ?_).mpr h
  rwa [← h.keys_eq, keys_trimmedProperties]

/-- Distinct texts lose none when later copies are left out. -/
theorem eraseDups_of_nodup {keys : List String} (hn : keys.Nodup) : keys.eraseDups = keys := by
  induction keys with
  | nil => rfl
  | cons key keys ih =>
    obtain ⟨hkey, hn⟩ := List.nodup_cons.mp hn
    have hothers : keys.filter (fun k => !k == key) = keys := by
      refine List.filter_eq_self.mpr fun k hk => ?_
      have hne : k ≠ key := fun heq => hkey (heq ▸ hk)
      simpa using hne
    rw [List.eraseDups_cons, hothers, ih hn]

/-- The list of the optional keys is read back as `listedOptional`. -/
theorem optionalKeys_toValue (hn : (Entries.keys ps).Nodup) (optional : List String) :
    optionalKeys (optionalToValue ps optional) = .ok (listedOptional ps optional) := by
  rw [optionalToValue, optionalKeys_texts, eraseDups_of_nodup (hn.filter _), listedOptional]

/-- The document of a tree is a mapping of type `record`. Its attributes and its optional keys are
read back as what is kept of them. -/
theorem exists_toRecord_toValue {t : AttributeTree} (hn : (Entries.keys t.properties).Nodup)
    (h : ∀ p ∈ t.properties, p.2.IsReadBack) :
    ∃ fields, t.toValue = .ok (.record [("type", .str "record"), ("properties", .record fields),
        ("optional", optionalToValue t.properties t.optional)]) ∧
      propertiesOfPart [] 0 (.record fields) = .ok (trimmedProperties t.properties) ∧
      optionalKeys (optionalToValue t.properties t.optional) = .ok t.trimmed.optional := by
  obtain ⟨fields, hfields, hread⟩ := exists_propertiesToValues h
  refine ⟨fields, ?_, ?_, optionalKeys_toValue hn _⟩
  · rw [AttributeTree.toValue, AttributeTree.toRecord, Attribute.toValue, hfields]
    rfl
  · exact propertiesOfPart_of_trimmed hn hread

/-- A record with distinct keys is read back if its attributes are. -/
theorem isReadBack_record {optional : List String} (hn : (Entries.keys ps).Nodup)
    (h : ∀ p ∈ ps, p.2.IsReadBack) : (Attribute.record ps optional).IsReadBack := by
  obtain ⟨fields, htree, hproperties, hoptional⟩ :=
    exists_toRecord_toValue (t := ⟨ps, optional⟩) hn h
  refine ⟨_, htree, fun key => ?_⟩
  rw [Value.record_eq, attributeOfPart]
  show Except.bind (propertiesOfPart [] 0 (.record fields)) _ = _
  rw [hproperties]
  show Except.bind (liftM (optionalKeys (optionalToValue ps optional)) : Outcome Malformed _) _ = _
  rw [hoptional]
  rfl

/-- Every attribute in the form of what is read is read back. The induction is on the attribute. -/
theorem Attribute.IsRead.isReadBack (h : a.IsRead) : a.IsReadBack := by
  induction h with
  | primitive hk ho => exact isReadBack_primitive hk ho
  | set hk ho ho' => exact isReadBack_set hk ho ho'
  | record hn _ ih => exact isReadBack_record hn ih
  | relation hc ht => exact isReadBack_relation _ hc ht

/-- A collection whose attributes are in form has a document, which is read back as the collection
`trimmed`. -/
theorem exists_toValue_collection (h : AreRead c.schema.properties) :
    ∃ v, c.toValue = .ok v ∧ Collection.ofValue v = .ok c.trimmed := by
  obtain ⟨fields, htree, hproperties, hoptional⟩ :=
    exists_toRecord_toValue h.nodup fun p hp => (h.isRead p hp).isReadBack
  have htrimmed : AttributeTree.ofValues (.record fields)
      (optionalToValue c.schema.properties c.schema.optional) = .ok c.schema.trimmed := by
    rw [AttributeTree.ofValues, hproperties, hoptional]
    rfl
  refine ⟨_, by rw [Collection.toValue, htree]; rfl, ?_⟩
  refine Outcome.bind_eq_ok.mpr ⟨_, rfl, Outcome.bind_eq_ok.mpr ⟨_, rfl, ?_⟩⟩
  refine Outcome.bind_eq_ok.mpr ⟨_, htrimmed, ?_⟩
  -- Rules that are absent are left out, and found to be absent.
  rw [Collection.trimmed]
  cases hrules : c.rules.isNull with
  | true =>
    rw [Value.eq_null_of_isNull hrules]
    rfl
  | false => rfl

/-- Collections have documents, and each of these is read back as what is kept of its
collection. -/
theorem exists_collectionsToValues {cs : List (String × Collection)}
    (h : ∀ p ∈ cs, AreRead p.2.schema.properties) :
    ∃ fields, collectionsToValues cs = .ok fields ∧
      Entries.Related (fun _ v c => Collection.ofValue v = .ok c) fields
        (cs.map fun p => (p.1, p.2.trimmed)) := by
  -- The text of a collection exists by its tree, and it is read back before the next one is
  -- written.
  induction cs with
  | nil => exact ⟨[], rfl, .nil⟩
  | cons p cs ih =>
    obtain ⟨name, c⟩ := p
    obtain ⟨v, hv, hread⟩ := exists_toValue_collection (h (name, c) List.mem_cons_self)
    obtain ⟨fields, hfields, hrelated⟩ := ih fun q hq => h q (List.mem_cons_of_mem _ hq)
    refine ⟨(name, v) :: fields, ?_, .cons ⟨rfl, hread⟩ hrelated⟩
    rw [collectionsToValues, hv, hfields]
    rfl

/-- A schema in its form has a document, which is read back as what is kept of the schema. -/
theorem Schema.IsRead.exists_toValue (h : s.IsRead) :
    ∃ v, s.toValue = .ok v ∧ Schema.ofValue v = .ok (some s.trimmed) := by
  obtain ⟨fields, hfields, hread⟩ := exists_collectionsToValues h.areRead
  have hcollections : collectionsOfEntries (textEntries fields) [] = .ok s.trimmed.collections := by
    refine (collectionsOfEntries_texts_iff ?_).mpr hread
    rw [← hread.keys_eq, Entries.keys, List.map_map]
    exact h.nodup
  refine ⟨_, by rw [Schema.toValue, hfields]; rfl, ?_⟩
  -- A mapping without collections does not count as true, and is replaced by one like it.
  have hmapping : (Value.record fields).orElse (.mapping []) = .record fields := by
    cases fields <;> rfl
  show Except.bind (entriesOf .collections ((Value.record fields).orElse (.mapping []))) _ = _
  rw [hmapping]
  show Except.bind (collectionsOfEntries (textEntries fields) []) _ = _
  rw [hcollections]
  rfl

end ReadBack

/-- Collections and what their documents keep of them have the same documents, name by name. -/
theorem collectionsToValues_trimmed (cs : List (String × Collection)) :
    collectionsToValues (cs.map fun p => (p.1, p.2.trimmed)) = collectionsToValues cs := by
  induction cs with
  | nil => rfl
  | cons p cs ih =>
    obtain ⟨name, c⟩ := p
    have hc : c.trimmed.toValue = c.toValue := by
      rw [Collection.toValue, Collection.toValue, AttributeTree.toValue, AttributeTree.toValue,
        ← Attribute.toValue_trimmed c.schema.toRecord]
      rfl
    rw [List.map_cons, collectionsToValues, hc, ih, collectionsToValues]

/-- A schema that is read of a document, whatever was coerced, has a document of its own. Read back,
that is the schema `trimmed`, with the optional keys of every tree cut down to the keys of the tree,
and it is the document of this one too. -/
theorem ofValue_toValue {document : Value} {s : Schema}
    (h : Schema.ofValue document = .ok (some s)) :
    ∃ v, s.toValue = .ok v ∧ Schema.ofValue v = .ok (some s.trimmed) ∧
      s.trimmed.toValue = .ok v := by
  obtain ⟨v, hv, hread⟩ := (Schema.isRead_ofValue h).exists_toValue
  refine ⟨v, hv, hread, ?_⟩
  rw [Schema.toValue, Schema.trimmed, collectionsToValues_trimmed, ← Schema.toValue, hv]

/-- A document in which almost nothing has the form in which it is read: kinds, keys, a name and a
target that are no texts, settings that are missing or absent, arguments that are a text, a mapping
or absent, a default that is absent, and a relation without a cardinality. -/
def looseDocument : Value :=
  .record [("version", .str " 7 "), ("collections", .mapping [
    (.int 1, .record [
      ("schema", .record [
        ("properties", .mapping [
          (.bool true, .record [("type", .int 5), ("options", .null)]),
          (.null, .record [("type", .bool true),
            ("options", .record [("nullable", .null), ("default", .null)])]),
          (.str "tags", .record [("type", .str "set"),
            ("items", .record [("type", .str "date"), ("options", .record [("default",
              .record [("func", .str "now"), ("args", .str "ab")])])]),
            ("options", .record [("default",
              .record [("func", .str "uuid"), ("args", .null)])])]),
          (.str "inner", .record [("type", .str "record"),
            ("properties", .record [("owner", .record [("type", .str "query"),
              ("query", .record [("collectionName", .int 9), ("where", .null),
                ("limit", .int 3)])])]),
            ("optional", .tuple [.str "gone", .str "owner", .str "owner"])])]),
        ("optional", .list [.null, .int 8, .str "inner"])]),
      ("rules", .null)])])]

/-- The schema that is read of `looseDocument`, with all keys and types made texts. -/
def looseSchema : Schema where
  version := 7
  collections := [("1", {
    schema := {
      properties := [("True", .primitive (.str "5") {}),
        ("None", .primitive (.str "True") { default := some .null }),
        ("tags", .set (.primitive (.str "date")
            { default := some (.function "now" [.str "a", .str "b"]) })
          { default := some (.function "uuid" []) }),
        ("inner", .record [("owner", .relation (.str "many") (.str "9") { limit := .int 3 })]
          ["gone", "owner"])]
      optional := ["None", "8", "inner"] } })]

/-- Reading `looseDocument` gives `looseSchema`. -/
theorem ofValue_looseDocument : Schema.ofValue looseDocument = .ok (some looseSchema) := by
  cbv

/-- The schema of that document comes back but for two optional keys, and then has the same
document. -/
theorem ofValue_toValue_looseSchema : Schema.ofValue looseDocument = .ok (some looseSchema) ∧
    ∃ v, looseSchema.toValue = .ok v ∧ Schema.ofValue v = .ok (some looseSchema.trimmed) ∧
      looseSchema.trimmed.toValue = .ok v :=
  ⟨ofValue_looseDocument, ofValue_toValue ofValue_looseDocument⟩

end SchemaForge
