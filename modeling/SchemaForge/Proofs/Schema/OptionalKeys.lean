import Mathlib
import SchemaForge.Proofs.Migration.Reading

/-!
# Where optional keys come from

Every record of a document, which is the root of a collection or a record attribute at any depth,
may say which of its keys are optional; nothing else does (section 3 of the specification).
`Value.recordAt?` finds the records of a document by the name of a collection and a path of keys,
and `Schema.treeAt?` the trees of a schema in the same way. A document that is read as a schema has
a record exactly where the schema has a tree, and the optional keys of the tree are those that the
record itself says (`takesKeys_of_ofValue`).

From the absent value no keys are taken, and from a list the texts of its items (`TakesKeys`): then
they are the keys that the operations of migrations take from the same value. Operations refuse any
other value. Reading a schema does not: a text gives its characters, a mapping gives its keys, and
what does not count as true gives none (`ofValue_letters`).
-/

namespace SchemaForge

/-! ## Records and trees -/

/-- The value of the last one of some entries whose key has a text: keys are read by their texts,
and a later one replaces an earlier one. -/
def lastWithText? (text : String) (es : List (Scalar × Value)) : Option Value :=
  Entries.get? text (es.map fun e => (e.1.text, e.2)).reverse

/-- The fields of a value that is a record attribute, as values of their own. -/
def Value.recordFields? (v : Value) : Option (List (Scalar × Value)) :=
  v.entries?.filter fun fields => (fieldOf "type" fields).same (.str "record")

/-- The fields of the record under a path of keys in a record, going through `properties` at each
step. -/
def recordIn? : List (Scalar × Value) → List String → Option (List (Scalar × Value))
  | fields, [] => some fields
  | fields, key :: path =>
    (lastWithText? key ((fieldOf "properties" fields).entries?.getD [])).bind fun v =>
      v.recordFields?.bind fun record => recordIn? record path

/-- The fields of the attribute tree of a collection, which is under its key `schema`. -/
def Value.rootFields? (collection : Value) : Option (List (Scalar × Value)) :=
  collection.entries?.bind fun entries => (fieldOf "schema" entries).entries?

/-- The fields of the record under a path in a collection of a document. At the empty path this is
the root of the collection. -/
def Value.recordAt? (document : Value) (name : String) (path : List String) :
    Option (List (Scalar × Value)) :=
  let collections := fieldOf "collections" (document.entries?.getD [])
  (lastWithText? name (collections.entries?.getD [])).bind fun collection =>
    collection.rootFields?.bind fun root => recordIn? root path

/-- The attribute tree of a `record`; other attributes have none. -/
def Attribute.tree? : Attribute → Option AttributeTree
  | .record properties optional => some ⟨properties, optional⟩
  | _ => none

/-- The tree under a path of keys in a tree, going through record attributes at each step. -/
def AttributeTree.treeIn? : AttributeTree → List String → Option AttributeTree
  | t, [] => some t
  | t, key :: path =>
    (Entries.get? key t.properties).bind fun a => a.tree?.bind fun tree => treeIn? tree path

/-- The tree under a path in a collection of a schema; at the empty path this is the tree of the
collection. -/
def Schema.treeAt? (s : Schema) (name : String) (path : List String) : Option AttributeTree :=
  (Entries.get? name s.collections).bind fun c => c.schema.treeIn? path

/-! ## Keys that are taken from a value -/

/-- The keys `keys` are taken from the value `v` that says what is optional: none from the absent
value, and from a list the texts of its items, each of them once. -/
structure TakesKeys (v : Value) (keys : List String) : Prop where
  /-- From the absent value none are taken. -/
  absent : v.isNull = true → keys = []
  /-- From a list the texts of its items are taken. -/
  list : ∀ items, v.listItems? = some items →
    ∀ key, key ∈ keys ↔ ∃ item ∈ items, item.text = key
  /-- From any value the texts of its elements are taken, or of none where it does not count as
  true. -/
  elements : ∃ elements, (v.orElse (.tuple [])).elements = .ok elements ∧
    ∀ key, key ∈ keys ↔ ∃ element ∈ elements, element.text = key
  /-- Operations take the same keys, or refuse what is not absent and no list. -/
  operations : (∃ taken, Parameters.keysOf "optional" v = .ok taken ∧
      ∀ key, key ∈ keys ↔ key ∈ taken) ∨
    (Parameters.keysOf "optional" v = refuse (.notList "optional" v) ∧ v.isNull = false ∧
      v.listItems? = none)

variable {v : Value} {keys : List String}

/-- The keys that `optionalKeys` reads are the texts of the `elements` of a value, or of an empty
one that stands in for it. -/
theorem exists_elements_of_optionalKeys (h : optionalKeys v = .ok keys) :
    ∃ elements, (v.orElse (.tuple [])).elements = .ok elements ∧
      keys = (elements.map Value.text).eraseDups := by
  obtain ⟨elements, helements, h⟩ := Outcome.bind_eq_ok.mp h
  cases h
  exact ⟨elements, helements, rfl⟩

/-- After `eraseDups` the texts of some values are still all of them, each one once. -/
theorem mem_texts_iff {values : List Value} {key : String} :
    key ∈ (values.map Value.text).eraseDups ↔ ∃ value ∈ values, value.text = key := by
  rw [List.mem_eraseDups, List.mem_map]

/-- What `optionalKeys` reads is taken from the value in the sense of `TakesKeys`. -/
theorem takesKeys_of_optionalKeys (h : optionalKeys v = .ok keys) : TakesKeys v keys := by
  obtain ⟨elements, helements, rfl⟩ := exists_elements_of_optionalKeys h
  refine ⟨fun hnull => ?_, fun items hitems key => ?_,
    ⟨elements, helements, fun _ => mem_texts_iff⟩, ?_⟩
  case refine_1 =>
    rw [Value.eq_null_of_isNull hnull] at helements
    cases helements
    rfl
  case refine_2 =>
    cases (Value.elements_orElse_tuple hitems).symm.trans helements
    exact mem_texts_iff
  -- The check of a collection takes the same keys or refuses; it never takes other ones.
  case refine_3 =>
    cases hkeys : Parameters.keysOf "optional" v with
    | ok taken =>
      have htaken := Except.ok.inj ((Parameters.optionalKeys_of_keysOf hkeys).symm.trans h)
      exact .inl ⟨taken, rfl, fun key => by rw [← htaken, List.mem_eraseDups]⟩
    | error failure =>
      unfold Parameters.keysOf at hkeys
      split at hkeys
      · cases hkeys
      · rename_i hnull
        split at hkeys
        · cases hkeys
        · rename_i hitems
          cases hkeys
          exact .inr ⟨rfl, Bool.eq_false_iff.mpr hnull, hitems⟩

/-! ## Trees are read of records -/

/-- The tree `t` is what is read of the fields of a record: of its properties and of its optional
keys. -/
structure IsTreeOf (fields : List (Scalar × Value)) (t : AttributeTree) : Prop where
  /-- The attributes are those that the properties describe. -/
  properties : DescribesAll (fieldOf "properties" fields) t.properties
  /-- The optional keys are read of what is said of them. -/
  optional : optionalKeys (fieldOf "optional" fields) = .ok t.optional

/-- Where related things are found, and what is found in them is related, the two searches are
related. -/
theorem rel_bind {α β γ δ : Type} {R : α → β → Prop} {S : γ → δ → Prop} {x : Option α}
    {y : Option β} {f : α → Option γ} {g : β → Option δ} (h : Option.Rel R x y)
    (hfg : ∀ a b, R a b → Option.Rel S (f a) (g b)) : Option.Rel S (x.bind f) (y.bind g) := by
  cases h with
  | some hab => exact hfg _ _ hab
  | none => exact .none

/-- What `Option.Rel` relates by a relation it relates by every weaker one. -/
theorem rel_mono {α β : Type} {R S : α → β → Prop} {x : Option α} {y : Option β}
    (h : Option.Rel R x y) (hRS : ∀ a b, R a b → S a b) : Option.Rel S x y := by
  cases h with
  | some hab => exact .some (hRS _ _ hab)
  | none => exact .none

/-- What is found under a text is related where the entries and what is made of them are, since both
take the last one. -/
theorem rel_get?_texts {β : Type} {R : Value → β → Prop} {ds : List ((Scalar × Value) × β)}
    (hd : ∀ d ∈ ds, R d.1.2 d.2) (text : String) :
    Option.Rel R (Entries.get? text (ds.map fun d => (d.1.1.text, d.1.2)))
      (Entries.get? text (ds.map fun d => (d.1.1.text, d.2))) := by
  induction ds with
  | nil => exact .none
  | cons d ds ih =>
    rw [List.map_cons, List.map_cons, Entries.get?, Entries.get?]
    split
    · exact .some (hd d List.mem_cons_self)
    · exact ih fun d' hmem => hd d' (List.mem_cons_of_mem _ hmem)

/-- Of entries with the same text both readers take the last one, so that what they find is related
as the values are. -/
theorem rel_lastWithText? {β : Type} {R : Value → β → Prop} {ds : List ((Scalar × Value) × β)}
    (hd : ∀ d ∈ ds, R d.1.2 d.2) (text : String) :
    Option.Rel R (lastWithText? text (ds.map (·.1)))
      (Entries.get? text (Entries.ofPairs (ds.map fun d => (d.1.1.text, d.2)))) := by
  rw [lastWithText?, Entries.get?_ofPairs, List.map_map, ← List.map_reverse, ← List.map_reverse]
  exact rel_get?_texts (fun d hmem => hd d (List.mem_reverse.mp hmem)) text

/-- A value that describes an attribute is a record exactly if the attribute is one, and the tree is
that of the record. -/
theorem rel_tree?_of_describes {a : Attribute} (h : Describes v a) :
    Option.Rel IsTreeOf v.recordFields? a.tree? := by
  unfold Value.recordFields?
  cases h with
  | record hv ht hp hd ho =>
    rw [hv, Option.filter_some, if_pos ht]
    exact .some ⟨⟨_, hp, hd, rfl⟩, ho⟩
  -- Only a record has fields that are looked at and a tree; no other type passes for it.
  | set hv ht =>
    have hrecord : ¬ (fieldOf "type" _).same (.str "record") = true :=
      fun h => absurd (type_unique ht h) (by decide)
    rw [hv, Option.filter_some, if_neg hrecord]
    exact .none
  | relation hv ht =>
    have hrecord : ¬ (fieldOf "type" _).same (.str "record") = true :=
      fun h => absurd (type_unique ht h) (by decide)
    rw [hv, Option.filter_some, if_neg hrecord]
    exact .none
  | primitive hv hrecord =>
    rw [hv, Option.filter_some, if_neg (Bool.eq_false_iff.mp hrecord)]
    exact .none

/-- Where a record has a record under a path, its tree has the tree of that record, and where it has
none, neither has the tree. The induction is on the path. -/
theorem rel_recordIn? {fields : List (Scalar × Value)} {t : AttributeTree} (h : IsTreeOf fields t)
    (path : List String) : Option.Rel IsTreeOf (recordIn? fields path) (t.treeIn? path) := by
  -- The induction is on the path: a key leads from a record to the attribute under it, and on from
  -- there if it is a record again.
  induction path generalizing fields t with
  | nil => exact .some h
  | cons key path ih =>
    obtain ⟨ds, hds, hd, hproperties⟩ := h.properties
    rw [recordIn?, AttributeTree.treeIn?, hds, hproperties]
    refine rel_bind (rel_lastWithText? hd key) fun v a hdescribes => ?_
    exact rel_bind (rel_tree?_of_describes hdescribes) fun record tree hread => ih hread

/-! ## Collections and documents -/

/-- The root of a value has the tree that is read of it, as a collection. -/
def IsCollectionOf (v : Value) (c : Collection) : Prop :=
  ∃ root, v.rootFields? = some root ∧ IsTreeOf root c.schema

/-- The tree that `Collection.ofValue` reads of a proper value is that of the fields of its root. -/
theorem isCollectionOf_of_ofValue {c : Collection} (hv : v.IsProper)
    (h : Collection.ofValue v = .ok c) : IsCollectionOf v c := by
  obtain ⟨entries, root, hentries, hroot, hps, hoptional, -⟩ := c.exists_of_ofValue h
  have hproper : (fieldOf "properties" root).IsProper :=
    isProper_fieldOf ((isProper_fieldOf (hv.of_entries? hentries) _).of_entries? hroot) _
  refine ⟨root, ?_, describesAll_of_propertiesOfPart hproper hps, hoptional⟩
  rw [Value.rootFields?, hentries, Option.bind_some, hroot]

/-- The entries of a mapping that the empty one stands in for are its own. -/
theorem entries?_of_orElse_mapping {es : List (Scalar × Value)}
    (h : (v.orElse (.mapping [])).entries? = some es) : v.entries?.getD [] = es := by
  rw [Value.orElse] at h
  cases htruthy : v.isTruthy with
  | true =>
    rw [htruthy, if_pos rfl] at h
    rw [h, Option.getD_some]
  | false =>
    rw [htruthy, if_neg Bool.false_ne_true] at h
    cases h
    cases hentries : v.entries? with
    | none => rfl
    | some entries =>
      rw [Value.isTruthy_of_entries? hentries, Bool.not_eq_false', List.isEmpty_iff] at htruthy
      exact htruthy

/-- The collections of a schema are read of those of its document, under the texts of their keys. -/
theorem exists_collections_of_ofValue {s : Schema} (hv : v.IsProper)
    (h : Schema.ofValue v = .ok (some s)) :
    ∃ ds : List ((Scalar × Value) × Collection),
      (fieldOf "collections" (v.entries?.getD [])).entries?.getD [] = ds.map (·.1) ∧
        (∀ d ∈ ds, d.1.2.IsProper ∧ Collection.ofValue d.1.2 = .ok d.2) ∧
          s.collections = Entries.ofPairs (ds.map fun d => (d.1.1.text, d.2)) := by
  obtain ⟨document, ds, hdocument, hcollections, hd, heq⟩ := s.exists_of_ofValue h
  have hproper : ((fieldOf "collections" document).orElse (.mapping [])).IsProper := by
    rw [Value.orElse]
    split
    · exact isProper_fieldOf (hv.of_entries? hdocument) _
    · exact .mapping fun _ he => absurd he List.not_mem_nil
  refine ⟨ds, ?_, fun d hmem => ⟨?_, hd d hmem⟩, heq⟩
  · rw [hdocument, Option.getD_some, entries?_of_orElse_mapping hcollections]
  · exact hproper.of_entries? hcollections d.1 (List.mem_map_of_mem hmem)

/-- A document that is read as a schema has a record exactly where the schema has a tree, and there
the optional keys of the tree are taken from what the record says of them (`TakesKeys`). -/
theorem takesKeys_of_ofValue {s : Schema} (hv : v.IsProper)
    (h : Schema.ofValue v = .ok (some s)) (name : String) (path : List String) :
    Option.Rel (fun record t => TakesKeys (fieldOf "optional" record) t.optional)
      (v.recordAt? name path) (s.treeAt? name path) := by
  obtain ⟨ds, hds, hd, hcollections⟩ := exists_collections_of_ofValue hv h
  have hroots : ∀ d ∈ ds, IsCollectionOf d.1.2 d.2 := fun d hmem =>
    isCollectionOf_of_ofValue (hd d hmem).1 (hd d hmem).2
  rw [Value.recordAt?, hds, Schema.treeAt?, hcollections]
  refine rel_bind (rel_lastWithText? hroots name) fun collection c hroot => ?_
  obtain ⟨root, hfields, hread⟩ := hroot
  rw [hfields, Option.bind_some]
  exact rel_mono (rel_recordIn? hread path) fun _ _ htree =>
    takesKeys_of_optionalKeys htree.optional

/-! ## Notes with details -/

/-- A document of notes with details, of which it says what is optional. -/
def detailsDocument (optional : Value) : Value :=
  .record [("version", .int 1), ("collections", .record [("notes", .record [("schema", .record
    [("properties", .record [("details", .record [("type", .str "record"),
      ("properties", .record [("a", .record [("type", .str "string")]),
        ("b", .record [("type", .str "string")])]),
      ("optional", optional)])])])])])]

/-- The tree of details with two texts as attributes and given optional keys. -/
def detailsTree (optional : List String) : AttributeTree :=
  ⟨[("a", .primitive (.str "string") {}), ("b", .primitive (.str "string") {})], optional⟩

/-- The schema of notes whose only attribute are details with given optional keys. -/
def detailsSchema (optional : List String) : Schema :=
  ⟨1, [("notes", { schema := ⟨[("details", (detailsTree optional).toRecord)], []⟩ })]⟩

/-- Of the details a key is optional that is listed as a text, and one that is listed as a number
and that no attribute has. -/
theorem takesKeys_of_ofValue_details :
    let document := detailsDocument (.list [.str "b", .int 5])
    let schema := detailsSchema ["b", "5"]
    document.IsProper ∧ Schema.ofValue document = .ok (some schema) ∧
      schema.treeAt? "notes" ["details"] = some (detailsTree ["b", "5"]) ∧
        Option.Rel (fun record t => TakesKeys (fieldOf "optional" record) t.optional)
          (document.recordAt? "notes" ["details"]) (schema.treeAt? "notes" ["details"]) := by
  intro document schema
  -- The keys of every mapping in the document are texts, from the inside to the outside.
  have hoptional : (Value.list [.str "b", .int 5]).IsKeyed :=
    .list (List.forall_mem_cons.mpr ⟨.scalar, List.forall_mem_singleton.mpr .scalar⟩)
  have hstring : (Value.record [("type", .str "string")]).IsKeyed := .of_forall (by decide) .scalar
  have hdetails : (Value.record [("type", .str "record"),
      ("properties", .record [("a", .record [("type", .str "string")]),
        ("b", .record [("type", .str "string")])]),
      ("optional", .list [.str "b", .int 5])]).IsKeyed :=
    .of_forall (by decide) ⟨.scalar, .of_forall (by decide) ⟨hstring, hstring⟩, hoptional⟩
  have hnotes : document.IsKeyed :=
    .of_forall (by decide) ⟨.scalar, .of_forall (by decide) (.of_forall (by decide)
      (.of_forall (by decide) (.of_forall (by decide) hdetails)))⟩
  have hread : Schema.ofValue document = .ok (some schema) := by
    cbv
  exact ⟨hnotes.isTree.isProper, hread, rfl,
    takesKeys_of_ofValue hnotes.isTree.isProper hread "notes" ["details"]⟩

/-- What operations refuse as a list of keys (`Parameters.keysOf`) is read as one by
`Schema.ofValue` if it is a text, a mapping or a truth value that is false, and breaks the reading
down if it is a number. -/
theorem ofValue_letters :
    (Schema.ofValue (detailsDocument (.str "ab")) = .ok (some (detailsSchema ["a", "b"])) ∧
      Parameters.keysOf "optional" (.str "ab") = refuse (.notList "optional" (.str "ab"))) ∧
    Schema.ofValue (detailsDocument (.record [("a", .null)])) = .ok (some (detailsSchema ["a"])) ∧
    Schema.ofValue (detailsDocument (.bool false)) = .ok (some (detailsSchema [])) ∧
    Schema.ofValue (detailsDocument (.int 5)) = .error (.broken .wrongKind) := by
  refine ⟨⟨?_, rfl⟩, ?_, ?_, ?_⟩
  · cbv
  · cbv
  · cbv
  · cbv

end SchemaForge
