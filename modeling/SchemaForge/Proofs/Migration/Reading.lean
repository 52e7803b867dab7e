import SchemaForge.Proofs.Migration.Location
import SchemaForge.Proofs.Schema.Description

/-!
# Schemas of working states

What is read of a working state as a schema, part by part: of a record in its normal form
(`Reads`), of a collection and of the state (`Working.Reads`). Bringing a record into its normal
form does not change what is read of it, as long as its mappings have texts as keys
(`reads_of_normalForm`).
-/

namespace SchemaForge

open Change (withPart)

/-! ## Values with text keys -/

namespace Value

/-- A value without knots, all of whose mappings have distinct texts as keys, as a JSON document has
them. -/
inductive IsKeyed : Value → Prop
  /-- A scalar. -/
  | scalar {s : Scalar} : IsKeyed (.scalar s)
  /-- A list of such values. -/
  | list {items : List Value} (h : ∀ v ∈ items, IsKeyed v) : IsKeyed (.list items)
  /-- A sequence of fixed length of such values. -/
  | tuple {items : List Value} (h : ∀ v ∈ items, IsKeyed v) : IsKeyed (.tuple items)
  /-- A mapping from texts to such values. -/
  | record {fields : List (String × Value)} (hdistinct : (Entries.keys fields).Nodup)
      (h : ∀ f ∈ fields, IsKeyed f.2) : IsKeyed (.record fields)
  /-- A set. -/
  | set {members : List Scalar} : IsKeyed (.set members)
  /-- A function with such arguments. -/
  | function {name : String} {arguments : List Value} (h : ∀ v ∈ arguments, IsKeyed v) :
      IsKeyed (.function name arguments)
  /-- A call with such arguments. -/
  | call {path : List String} {arguments : List Value} (h : ∀ v ∈ arguments, IsKeyed v) :
      IsKeyed (.call path arguments)

variable {v : Value} {es : List (Scalar × Value)} {fields : List (String × Value)} {name : String}

/-- A value whose mappings have text keys at every depth is a tree: no reference stands in it. -/
theorem IsKeyed.isTree (h : v.IsKeyed) : v.IsTree := by
  induction h with
  | scalar => exact .scalar
  | list _ ih => exact .list ih
  | tuple _ ih => exact .tuple ih
  | @record fields _ _ ih =>
    refine .mapping fun e he => ?_
    obtain ⟨f, hf, rfl⟩ := List.mem_map.mp he
    exact ih f hf
  | set => exact .set
  | function _ ih => exact .function ih
  | call _ ih => exact .call ih

/-- A value with entries is not the absent one. -/
theorem isNull_of_entries? (h : v.entries? = some es) : v.isNull = false := by
  cases hnull : v.isNull with
  | false => rfl
  | true =>
    rw [eq_null_of_isNull hnull] at h
    cases h

/-- The elements of a list are its items, also if it has none and an empty sequence stands in for
it. -/
theorem elements_orElse_tuple {items : List Value} (h : v.listItems? = some items) :
    (v.orElse (.tuple [])).elements = .ok items := by
  have hitems : v.elements = .ok items := by
    unfold listItems? at h
    unfold elements
    split at h
    · rename_i heq
      cases h
      rw [heq]
    · rename_i heq
      cases h
      rw [heq]
    · cases h
  -- A list in a knot is the content of its node.
  have hempty : v.isTruthy = false → items = [] := by
    cases v with
    | list items' =>
      cases h
      exact fun ht => by simpa [isTruthy, content] using ht
    | tuple items' =>
      cases h
      exact fun ht => by simpa [isTruthy, content] using ht
    | knot n nodes =>
      intro ht
      unfold listItems? at h
      unfold isTruthy at ht
      rw [unroll] at h
      rw [content] at ht
      generalize nodes.getD n .null = node at h ht
      cases node with
      | list items' =>
        cases h
        simpa using ht
      | tuple items' =>
        cases h
        simpa using ht
      | _ => cases h
    | _ => cases h
  unfold orElse
  cases ht : v.isTruthy with
  | true => exact hitems
  | false =>
    rw [hempty ht]
    rfl

mutual

/-- Whether all keys of the mappings in a value are texts. A knot is looked through node by node, so
this also tells of values that occur within themselves, which are none of `IsKeyed`. -/
def hasTextKeys : Value → Bool
  | .list items => allHaveTextKeys items
  | .tuple items => allHaveTextKeys items
  | .mapping entries => entriesHaveTextKeys entries
  | .function _ arguments => allHaveTextKeys arguments
  | .call _ arguments => allHaveTextKeys arguments
  | .knot _ nodes => allHaveTextKeys nodes
  | _ => true

/-- Whether each of several values `hasTextKeys`. -/
def allHaveTextKeys : List Value → Bool
  | [] => true
  | v :: rest => hasTextKeys v && allHaveTextKeys rest

/-- Whether the keys of entries are texts, and those of the mappings in their values. -/
def entriesHaveTextKeys : List (Scalar × Value) → Bool
  | [] => true
  | (.str _, v) :: rest => hasTextKeys v && entriesHaveTextKeys rest
  | _ => false

end

/-- If each of several values `hasTextKeys`, the function `allHaveTextKeys` says so. -/
theorem allHaveTextKeys_of_forall {vs : List Value} (h : ∀ v ∈ vs, v.hasTextKeys = true) :
    allHaveTextKeys vs = true := by
  induction vs with
  | nil => rfl
  | cons v vs ih =>
    obtain ⟨hv, hvs⟩ := List.forall_mem_cons.mp h
    rw [allHaveTextKeys, hv, ih hvs]
    rfl

/-- Fields whose values have text keys are entries with text keys, the keys of fields being
texts. -/
theorem entriesHaveTextKeys_of_forall (h : ∀ f ∈ fields, f.2.hasTextKeys = true) :
    entriesHaveTextKeys (fields.map fun f => (.str f.1, f.2)) = true := by
  induction fields with
  | nil => rfl
  | cons f fields ih =>
    obtain ⟨hf, hfields⟩ := List.forall_mem_cons.mp h
    rw [List.map_cons, entriesHaveTextKeys, hf, ih hfields]
    rfl

/-- A value that is `IsKeyed` has texts as keys, so that `hasTextKeys` asks for less. -/
theorem IsKeyed.hasTextKeys (h : v.IsKeyed) : v.hasTextKeys = true := by
  induction h with
  | scalar => rfl
  | list _ ih => exact allHaveTextKeys_of_forall ih
  | tuple _ ih => exact allHaveTextKeys_of_forall ih
  | record _ _ ih => exact entriesHaveTextKeys_of_forall ih
  | set => rfl
  | function _ ih => exact allHaveTextKeys_of_forall ih
  | call _ ih => exact allHaveTextKeys_of_forall ih

/-- A value that is `IsKeyed` has no links that would have to be followed. -/
theorem IsKeyed.within_eq (h : v.IsKeyed) (nodes : List Value) : v.within nodes = v :=
  h.isTree.isProper.within_eq nodes

/-- A mapping that is `IsKeyed` has fields under distinct texts, and these are `IsKeyed` too. -/
theorem IsKeyed.exists_fields (h : v.IsKeyed) (hes : v.entries? = some es) :
    ∃ fields, v = .record fields ∧ es = textEntries fields ∧ (Entries.keys fields).Nodup ∧
      ∀ f ∈ fields, f.2.IsKeyed := by
  cases h with
  | record hdistinct h =>
    cases hes
    exact ⟨_, rfl, rfl, hdistinct, h⟩
  | _ => cases hes

/-- A mapping from distinct texts to values with text keys has text keys. -/
theorem IsKeyed.of_forall (hdistinct : (Entries.keys fields).Nodup)
    (h : fields.Forall fun f => f.2.IsKeyed) : (Value.record fields).IsKeyed :=
  .record hdistinct (List.forall_iff_forall_mem.mp h)

/-- The mapping without entries `IsKeyed`. -/
theorem isKeyed_mapping_nil : (mapping []).IsKeyed := by
  show (record []).IsKeyed
  exact .record List.nodup_nil fun _ h => absurd h List.not_mem_nil

/-- A mapping with text keys is the `record` of some fields. -/
theorem IsKeyed.exists_record (h : v.IsKeyed) (hmapping : v.isMapping = true) :
    ∃ fields, v = .record fields := by
  obtain ⟨es, hes⟩ := exists_entries? hmapping
  obtain ⟨fields, rfl, -⟩ := h.exists_fields hes
  exact ⟨fields, rfl⟩

/-- If a `record` of fields `IsKeyed`, so are the values of the fields. -/
theorem isKeyed_of_record (h : (record fields).IsKeyed) : ∀ f ∈ fields, f.2.IsKeyed := by
  obtain ⟨fs, -, heq, -, hfs⟩ := h.exists_fields entries?_record
  rw [textEntries.inj heq]
  exact hfs

/-- No links have to be followed in the entries of a mapping with text keys. -/
theorem within_textEntries (h : ∀ f ∈ fields, f.2.IsKeyed) :
    ∀ e ∈ textEntries fields, e.2.within [] = e.2 := by
  intro e he
  obtain ⟨f, hf, rfl⟩ := List.mem_map.mp he
  exact (h f hf).within_eq []

/-- What is found among values that are all keyed `IsKeyed`, and so is the absent value that stands
for what is not found. -/
theorem isKeyed_getD (h : ∀ f ∈ fields, f.2.IsKeyed) (name : String) :
    ((Entries.get? name fields).getD .null).IsKeyed := by
  cases hget : Entries.get? name fields with
  | none => exact .scalar
  | some v => exact h _ (Entries.mem_of_get? hget)

end Value

namespace Parameters

variable {v : Value} {es : List (Scalar × Value)} {fields : List (String × Value)}
  {name : String} {keys : List String}

/-- Entries under distinct texts stay as they are when their keys are made texts. -/
theorem withTextKeys_textEntries (h : (Entries.keys fields).Nodup) :
    withTextKeys (textEntries fields) = textEntries fields := by
  have hmap : ((textEntries fields).map fun e => (Scalar.str e.1.text, e.2))
      = textEntries fields := by
    rw [textEntries, List.map_map]
    rfl
  rw [withTextKeys, hmap, textEntries.ofPairs h]

/-- A mapping that is `IsKeyed` is read by `mappingOf` as it is. -/
theorem mappingOf_of_isKeyed (hv : v.IsKeyed) (h : mappingOf name v = .ok es) :
    (v = .null ∧ es = []) ∨ ∃ fields, v = .record fields ∧ es = textEntries fields ∧
      (Entries.keys fields).Nodup ∧ ∀ f ∈ fields, f.2.IsKeyed := by
  unfold mappingOf at h
  -- Null stands for no entries, and a mapping with text keys keeps its own.
  split at h
  · rename_i hnull
    cases h
    exact .inl ⟨Value.eq_null_of_isNull hnull, rfl⟩
  · split at h
    · rename_i entries hentries
      obtain ⟨fields, rfl, rfl, hdistinct, hfields⟩ := hv.exists_fields hentries
      cases h
      exact .inr ⟨fields, rfl, withTextKeys_textEntries hdistinct, hdistinct, hfields⟩
    · cases h

/-- Where operations take keys from a value (`keysOf`), the schema reader takes the same ones
(`optionalKeys`), each of them once. -/
theorem optionalKeys_of_keysOf (h : keysOf name v = .ok keys) :
    optionalKeys v = .ok keys.eraseDups := by
  unfold keysOf at h
  -- Null stands for no keys in both, and where `keysOf` has items, the reader takes the same.
  split at h
  · rename_i hnull
    cases h
    rw [Value.eq_null_of_isNull hnull]
    rfl
  · split at h
    · rename_i items hitems
      cases h
      rw [optionalKeys, Value.elements_orElse_tuple hitems]
      rfl
    · cases h

end Parameters

/-! ## Attributes -/

/-- The attribute tree that is read of a record in its normal form: attribute by attribute, and each
optional key once. -/
structure Reads (r : WorkingRecord) (t : AttributeTree) : Prop where
  /-- The attributes. -/
  properties : Entries.Related IsReadAs r.properties t.properties
  /-- The optional keys, each one once. -/
  optional : t.optional = r.optional.eraseDups

/-- A mapping without entries has no attributes. -/
theorem propertiesOfPart_record_nil : propertiesOfPart [] 0 (.record []) = .ok [] := by
  rw [Value.record_eq, propertiesOfPart, textEntries, List.map_nil, propertiesOfEntries]

/-- An `AttributeTree` is known by its attributes and its optional keys. -/
theorem AttributeTree.eq_mk {t : AttributeTree} {properties : List (String × Attribute)}
    {optional : List String} (hp : t.properties = properties) (ho : t.optional = optional) :
    t = ⟨properties, optional⟩ := by
  obtain ⟨ps, os⟩ := t
  cases hp
  cases ho
  rfl

/-- What is read of a mapping of the type of records is a tree, read of its attributes and of its
optional keys. -/
theorem exists_tree_of_ofValue {es : List (Scalar × Value)} {key : Option String} {a : Attribute}
    (hes : ∀ e ∈ es, e.2.within [] = e.2)
    (htype : (fieldOf "type" es).same (.str "record") = true)
    (h : Attribute.ofValue key (.mapping es) = .ok a) :
    ∃ t : AttributeTree, a = t.toRecord ∧
      propertiesOfPart [] 0 (fieldOf "properties" es) = .ok t.properties ∧
        optionalKeys (fieldOf "optional" es) = .ok t.optional := by
  -- The other three cases have another type.
  rcases attributeOfPart_mapping h (entriesWithin_of_within hes) with
    ⟨-, ps, optional, hps, ho, rfl⟩ | ⟨hset, -⟩ | ⟨hquery, -⟩ | ⟨hrecord, -⟩
  · refine ⟨⟨ps, optional⟩, rfl, ?_, ho⟩
    rw [fieldOf]
    cases hfield : Value.field? "properties" es with
    | none =>
      rw [hfield] at hps
      cases hps
      exact propertiesOfPart_null
    | some v =>
      rw [hfield] at hps
      exact hps
  · exact absurd (type_unique htype hset) (by decide)
  · exact absurd (type_unique htype hquery) (by decide)
  · cases htype.symm.trans hrecord

/-- A sound record is read as its tree from the mapping of its attributes and the list of its
optional keys. -/
theorem Reads.ofValues {r : WorkingRecord} {t : AttributeTree} (hr : r.IsSound) (h : Reads r t) :
    AttributeTree.ofValues (.record r.properties) (.list (r.optional.map .str)) = .ok t := by
  obtain ⟨properties, optional⟩ := t
  obtain ⟨hproperties, hoptional⟩ := h
  have has := (propertiesOfPart_record_iff hr).mpr hproperties
  obtain rfl : optional = r.optional.eraseDups := hoptional
  rw [AttributeTree.ofValues, has, Outcome.ok_bind, optionalKeys_texts]
  rfl

/-! ## Normal forms -/

section NormalForm

variable {v : Value} {es : List (Scalar × Value)} {n : WorkingRecord} {key : Option String}
  {a : Attribute} {fields : List (String × Value)}

/-- The normal form of a record with text keys has its attributes as they are, and its optional keys
as texts. -/
theorem normalForm_record (hfields : ∀ f ∈ fields, f.2.IsKeyed)
    (hn : Operation.NormalForm (.record fields) n) :
    (∀ f ∈ n.properties, f.2.IsKeyed) ∧
      ((Entries.get? "properties" fields).getD .null = .null ∧ n.properties = [] ∨
        (Entries.get? "properties" fields).getD .null = .record n.properties) ∧
      Parameters.keysOf "optional" ((Entries.get? "optional" fields).getD .null)
        = .ok n.optional := by
  obtain ⟨hsound, p, o, hp, hproperties, ho, hoptional⟩ := hn
  rw [Value.get_record] at hp
  cases hp
  rw [Value.withPart_record, Value.get_record, Entries.get?_put_of_ne (by decide)] at ho
  cases ho
  -- The attributes are missing or null, or they are a mapping with text keys, which stays the same.
  rcases Parameters.mappingOf_of_isKeyed (Value.isKeyed_getD hfields _) hproperties with
    ⟨hnull, hempty⟩ | ⟨fs, hfs, heq, -, hkeyed⟩
  · have hempty' := textEntries.eq_nil hempty
    exact ⟨by rw [hempty']; exact fun _ h => absurd h List.not_mem_nil, .inl ⟨hnull, hempty'⟩,
      hoptional⟩
  · rw [textEntries.inj heq]
    exact ⟨hkeyed, .inr hfs, hoptional⟩

/-- The attributes of the normal form of a record with text keys have text keys. -/
theorem isKeyed_of_normalForm (hv : v.IsKeyed) (hes : v.entries? = some es)
    (hn : Operation.NormalForm v n) : ∀ f ∈ n.properties, f.2.IsKeyed := by
  obtain ⟨fields, rfl, -, -, hfields⟩ := hv.exists_fields hes
  exact (normalForm_record hfields hn).1

/-- Bringing a record with text keys into its normal form does not change what is read of it. -/
theorem reads_of_normalForm (hv : v.IsKeyed) (hes : v.entries? = some es)
    (htype : (fieldOf "type" es).same (.str "record") = true) (hn : Operation.NormalForm v n)
    (h : Attribute.ofValue key v = .ok a) : ∃ t, a = t.toRecord ∧ Reads n t := by
  obtain ⟨fields, rfl, rfl, -, hfields⟩ := hv.exists_fields hes
  obtain ⟨t, rfl, hproperties, hoptional⟩ :=
    exists_tree_of_ofValue (Value.within_textEntries hfields) htype h
  obtain ⟨-, hp, ho⟩ := normalForm_record hfields hn
  refine ⟨t, rfl, ?_, ?_⟩
  · rw [fieldOf_textEntries] at hproperties
    -- The attributes were missing before, or they were the same mapping already.
    rcases hp with ⟨hnull, hempty⟩ | hrecord
    · rw [hnull, propertiesOfPart_null] at hproperties
      rw [hempty, ← Except.ok.inj hproperties]
      exact .nil
    · rw [hrecord] at hproperties
      exact (propertiesOfPart_record_iff hn.1).mp hproperties
  · rw [fieldOf_textEntries, Parameters.optionalKeys_of_keysOf ho] at hoptional
    exact (Except.ok.inj hoptional).symm

/-- What is read of a mapping into which a record is put is the tree of this record. -/
theorem reads_of_laidOver (hv : v.IsKeyed) (hes : v.entries? = some es)
    (htype : (fieldOf "type" es).same (.str "record") = true) (hn : n.IsSound)
    (h : Attribute.ofValue key (n.laidOver v) = .ok a) : ∃ t, a = t.toRecord ∧ Reads n t := by
  obtain ⟨fields, rfl, rfl, -, hfields⟩ := hv.exists_fields hes
  have hover : n.laidOver (.record fields) = .record (Entries.put "optional"
      (.list (n.optional.map .str)) (Entries.put "properties" (.record n.properties) fields)) := by
    rw [WorkingRecord.laidOver, Value.withPart_record, Value.withPart_record]
  rw [hover] at h
  have hwithin : ∀ e ∈ textEntries (Entries.put "optional" (.list (n.optional.map .str))
      (Entries.put "properties" (.record n.properties) fields)), e.2.within [] = e.2 := by
    intro e he
    obtain ⟨f, hf, rfl⟩ := List.mem_map.mp he
    rcases Entries.mem_put hf with rfl | hf
    · rfl
    · rcases Entries.mem_put hf with rfl | hf
      · rfl
      · exact (hfields f hf).within_eq []
  -- Neither of the two parts that are put in is the type.
  have htype' : (fieldOf "type" (textEntries (Entries.put "optional"
      (.list (n.optional.map .str)) (Entries.put "properties" (.record n.properties) fields)))).same
        (.str "record") = true := by
    rw [fieldOf_textEntries] at htype ⊢
    rwa [Entries.get?_put_of_ne (by decide), Entries.get?_put_of_ne (by decide)]
  obtain ⟨t, rfl, hproperties, hoptional⟩ := exists_tree_of_ofValue hwithin htype' h
  refine ⟨t, rfl, ?_, ?_⟩
  · rw [fieldOf_textEntries, Entries.get?_put_of_ne (by decide), Entries.get?_put_self,
      Option.getD_some] at hproperties
    exact (propertiesOfPart_record_iff hn).mp hproperties
  · rw [fieldOf_textEntries, Entries.get?_put_self, Option.getD_some,
      optionalKeys_texts] at hoptional
    exact (Except.ok.inj hoptional).symm

end NormalForm

/-! ## Collections and states -/

/-- The rules of a collection as a value, absent where there are none. -/
def WorkingCollection.rulesValue (c : WorkingCollection) : Value := c.rules.elim .null .record

/-- A collection in a working state is read as the collection of a schema: by its attributes, its
optional keys and its rules. -/
def IsReadAsCollection (c : WorkingCollection) (d : Collection) : Prop :=
  AttributeTree.ofValues (.record c.record.properties) (.list (c.record.optional.map .str))
    = .ok d.schema ∧ d.rules = c.rulesValue

/-- The function `Collection.ofValue` reads a collection in a working state by the attributes and
the optional keys of its record; its rules are carried as they are. -/
theorem WorkingCollection.read_eq (c : WorkingCollection) : Collection.ofValue c.toValue
    = AttributeTree.ofValues (.record c.record.properties) (.list (c.record.optional.map .str))
      >>= fun tree => .ok ⟨tree, c.rulesValue⟩ := by
  obtain ⟨record, rules⟩ := c
  cases rules <;> rfl

/-- What `Collection.ofValue` reads of a collection in a working state is its record as a tree and
its rules as they are. -/
theorem isReadAsCollection_of_ofValue {c : WorkingCollection} {d : Collection}
    (h : Collection.ofValue c.toValue = .ok d) : IsReadAsCollection c d := by
  rw [c.read_eq] at h
  obtain ⟨tree, htree, h⟩ := Outcome.bind_eq_ok.mp h
  cases h
  exact ⟨htree, rfl⟩

/-- If a collection is read, its record `Reads` as the tree of the collection. -/
theorem IsReadAsCollection.reads {c : WorkingCollection} {d : Collection} (hc : c.IsSound)
    (h : IsReadAsCollection c d) : Reads c.record d.schema := by
  obtain ⟨ps, hps, h⟩ := Outcome.bind_eq_ok.mp h.1
  obtain ⟨optional, hoptional, h⟩ := Outcome.bind_eq_ok.mp h
  rw [optionalKeys_texts] at hoptional
  have htree := Except.ok.inj h
  rw [← htree]
  exact ⟨(propertiesOfPart_record_iff hc.record).mp hps, (Except.ok.inj hoptional).symm⟩

/-- A collection of the working state is read as one collection of a schema at most. -/
theorem isReadAsCollection_unique (_ : String) (c : WorkingCollection) (d d' : Collection)
    (h : IsReadAsCollection c d) (h' : IsReadAsCollection c d') : d = d' := by
  obtain ⟨schema, rules⟩ := d
  obtain ⟨schema', rules'⟩ := d'
  obtain ⟨hschema, rfl⟩ := h
  obtain ⟨hschema', rfl⟩ := h'
  cases hschema.symm.trans hschema'
  rfl

/-- The schema that is read of a working state: collection by collection, with the version of the
state. -/
structure Working.Reads (w : Working) (s : Schema) : Prop where
  /-- The version. -/
  version : s.version = w.version
  /-- The collections. -/
  collections : Entries.Related (fun _ => IsReadAsCollection) w.collections s.collections

/-- The function `Schema.ofValue` reads a working state by its collections, and the schema has the
version of the state. -/
theorem Working.read_eq (w : Working) : Schema.ofValue w.toValue
    = collectionsOfEntries (textEntries (Entries.mapValues WorkingCollection.toValue
      w.collections)) [] >>= fun cs => .ok (some ⟨w.version, cs⟩) := by
  obtain ⟨version, cs⟩ := w
  cases cs <;> rfl

/-- What is read of a sound working state is read collection by collection, under the same names in
the same order. -/
theorem Working.reads_of_ofValue {w : Working} {s : Schema} (hw : w.IsSound)
    (h : Schema.ofValue w.toValue = .ok (some s)) : w.Reads s := by
  rw [w.read_eq] at h
  obtain ⟨cs, hcs, h⟩ := Outcome.bind_eq_ok.mp h
  cases h
  have hrelated := (collectionsOfEntries_texts_iff
    (by rw [Entries.keys_mapValues]; exact hw.names)).mp hcs
  refine ⟨rfl, (Entries.Related.mapValues_left_iff.mp hrelated).mono fun _ _ _ hd => ?_⟩
  exact isReadAsCollection_of_ofValue hd

/-- A sound working state is read as the schema that its collections are read as. -/
theorem Working.ofValue_of_reads {w : Working} {s : Schema} (hw : w.IsSound) (h : w.Reads s) :
    Schema.ofValue w.toValue = .ok (some s) := by
  have hnames : (Entries.keys
      (Entries.mapValues WorkingCollection.toValue w.collections)).Nodup := by
    rw [Entries.keys_mapValues]
    exact hw.names
  -- Each collection is read on its own, so the relation of the collections is the one of their
  -- values.
  have hrelated : Entries.Related (fun _ v d => Collection.ofValue v = .ok d)
      (Entries.mapValues WorkingCollection.toValue w.collections) s.collections := by
    refine Entries.Related.mapValues_left_iff.mpr (h.collections.mono fun _ c d hd => ?_)
    obtain ⟨schema, rules⟩ := d
    obtain ⟨htree, hrules⟩ := hd
    obtain rfl : rules = c.rulesValue := hrules
    rw [c.read_eq, htree]
    rfl
  obtain ⟨version, collections⟩ := s
  obtain rfl : version = w.version := h.version
  rw [w.read_eq, (collectionsOfEntries_texts_iff hnames).mpr hrelated]
  rfl

end SchemaForge
