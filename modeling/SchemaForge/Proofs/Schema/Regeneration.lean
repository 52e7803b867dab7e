import Mathlib
import SchemaForge.Proofs.Schema.Description
import SchemaForge.Proofs.Source.Module

/-!
# Modules written again

Equal schemas have one text (section 8 of the specification), and here it is found again. What is
read of a document is regular, and its conditions, orders and rules are parts of the document. So if
in these no two keys of a mapping have the same JSON text, the module of the schema can be loaded,
and the schema that is loaded has the same module, character for character.
-/

namespace SchemaForge

/-- A mapping from texts to trees is a tree. -/
theorem Value.IsTree.record {fields : List (String × Value)} (h : ∀ f ∈ fields, f.2.IsTree) :
    (Value.record fields).IsTree := by
  refine .mapping fun e he => ?_
  obtain ⟨f, hf, rfl⟩ := List.mem_map.mp he
  exact h f hf

/-! ## Readings are regular -/

variable {v : Value} {a : Attribute} {ps : List (String × Attribute)}

/-- A value that is the same as one of the `cardinalities` is one of them, since these are texts. -/
theorem mem_cardinalities {c : Value} (h : cardinalities.any c.same = true) :
    c ∈ cardinalities := by
  obtain ⟨one, hone, hsame⟩ := List.any_eq_true.mp h
  rcases List.mem_cons.mp hone with rfl | htail
  · rw [Value.eq_str_of_same hsame]
    exact hone
  · cases List.mem_singleton.mp htail
    rw [Value.eq_str_of_same hsame]
    exact hone

/-- What a proper value describes is regular, and its conditions and orders are proper values. -/
theorem Describes.isRegular (h : Describes v a) (hv : v.IsProper) : a.IsRegular Value.IsProper := by
  induction h with
  | @record v es ds optional he _ hp _ _ ih =>
    have hproperties := isProper_fieldOf (hv.of_entries? he) "properties"
    refine .record (nodup_keys_attributesOf ds) fun p hmem => ?_
    -- An attribute among them is described by one of the entries, which is proper.
    obtain ⟨d, hd, heq⟩ := exists_of_mem_ofPairs hmem
    rw [heq]
    exact ih d hd (isProper_of_mem_entries hproperties hp hd)
  | set => exact .set
  | @relation v c es query he _ hq _ hone =>
    have hquery := (isProper_fieldOf (hv.of_entries? he) "query").of_entries? hq
    exact .relation (mem_cardinalities hone) (isProper_fieldOf hquery _)
      (isProper_fieldOf hquery _)
  | primitive => exact .primitive

/-- The attributes that a proper value describes have distinct keys and are regular. -/
theorem DescribesAll.isRegular (h : DescribesAll v ps) (hv : v.IsProper) :
    (Entries.keys ps).Nodup ∧ ∀ p ∈ ps, p.2.IsRegular Value.IsProper := by
  obtain ⟨ds, hds, hd, rfl⟩ := h
  refine ⟨nodup_keys_attributesOf ds, fun p hp => ?_⟩
  obtain ⟨d, hmem, heq⟩ := exists_of_mem_ofPairs hp
  rw [heq]
  exact (hd d hmem).isRegular (isProper_of_mem_entries hv hds hmem)

/-- A collection that `Collection.ofValue` reads of a proper value is regular, and carries proper
values. -/
theorem Collection.isRegular_ofValue {c : Collection} (hv : v.IsProper)
    (h : Collection.ofValue v = .ok c) : c.IsRegular Value.IsProper := by
  obtain ⟨es, root, hes, hroot, hproperties, -, hrules⟩ := c.exists_of_ofValue h
  have hes := hv.of_entries? hes
  have hvalue := isProper_fieldOf ((isProper_fieldOf hes "schema").of_entries? hroot) "properties"
  obtain ⟨hn, hregular⟩ := (describesAll_of_propertiesOfPart hvalue hproperties).isRegular hvalue
  exact ⟨hn, hregular, hrules ▸ isProper_fieldOf hes "rules"⟩

/-- A schema that is read of a proper document is regular, and carries proper values only. -/
theorem Schema.isRegular_ofValue {s : Schema} (hv : v.IsProper)
    (h : Schema.ofValue v = .ok (some s)) : s.IsRegular Value.IsProper := by
  obtain ⟨document, ds, hdocument, hcollections, hd, heq⟩ := s.exists_of_ofValue h
  have hfield := isProper_fieldOf (hv.of_entries? hdocument) "collections"
  have hvalue : ((fieldOf "collections" document).orElse (.mapping [])).IsProper := by
    unfold Value.orElse
    split_ifs
    · exact hfield
    · exact .mapping fun _ he => absurd he List.not_mem_nil
  refine ⟨heq ▸ Entries.nodup_keys_putAll List.nodup_nil, fun p hp => ?_⟩
  obtain ⟨d, hmem, hread⟩ := exists_of_mem_ofPairs (heq ▸ hp)
  rw [hread]
  exact Collection.isRegular_ofValue
    (hvalue.of_entries? hcollections _ (List.mem_map_of_mem hmem)) (hd d hmem)

/-! ## What schemas carry -/

/-- What the relations in an attribute carry as conditions and orders is all `P`, at every depth. -/
inductive Attribute.Carries (P : Value → Prop) : Attribute → Prop
  /-- A primitive attribute carries nothing. -/
  | primitive {kind : Value} {o : Options} : Carries P (.primitive kind o)
  /-- A set carries what its items do. -/
  | set {items : Attribute} {o : Options} (h : Carries P items) : Carries P (.set items o)
  /-- A record carries what its attributes do. -/
  | record {properties : List (String × Attribute)} {optional : List String}
      (h : ∀ p ∈ properties, Carries P p.2) : Carries P (.record properties optional)
  /-- A relation carries its condition and its order. -/
  | relation {cardinality target : Value} {query : Query} (hw : P query.condition)
      (ho : P query.order) : Carries P (.relation cardinality target query)
  /-- What is no attribute carries nothing. -/
  | foreign {v : Value} : Carries P (.foreign v)

/-- What a schema carries as conditions, orders and rules is all `P`. -/
def Schema.Carries (P : Value → Prop) (s : Schema) : Prop :=
  ∀ p ∈ s.collections, (∀ q ∈ p.2.schema.properties, q.2.Carries P) ∧ P p.2.rules

variable {P Q : Value → Prop} {s : Schema}

/-- A regular attribute all of whose values have a property is regular for this property as well. -/
theorem Attribute.IsRegular.and_carries (h : a.IsRegular P) (hc : a.Carries Q) :
    a.IsRegular fun v => P v ∧ Q v := by
  induction h with
  | primitive => exact .primitive
  | set => exact .set
  | record hn _ ih =>
    cases hc with
    | record hc => exact .record hn fun p hp => ih p hp (hc p hp)
  | relation hcard hw ho =>
    cases hc with
    | relation hw' ho' => exact .relation hcard ⟨hw, hw'⟩ ⟨ho, ho'⟩
  | foreign => exact .foreign

/-- A regular schema all of whose values have a property is regular for this property as well. -/
theorem Schema.IsRegular.and_carries (h : s.IsRegular P) (hc : s.Carries Q) :
    s.IsRegular fun v => P v ∧ Q v := by
  refine ⟨h.nodup, fun p hp => ?_⟩
  obtain ⟨hproperties, hrules⟩ := hc p hp
  have hcollection := h.collections p hp
  exact ⟨hcollection.nodup, fun q hq => (hcollection.properties q hq).and_carries
    (hproperties q hq), hcollection.rules, hrules⟩

/-- The module of a schema that was read of a proper document can be loaded, and the schema that is
loaded has the same module, character for character, with any two tables that arise. The condition
is that in no mapping of a condition, an order or rules two keys have the same JSON text. -/
theorem encodeModule_load {document : Value} (hdocument : document.IsProper)
    {schema : Option Schema} (hschema : Schema.ofValue document = .ok schema)
    (hkeys : ∀ s ∈ schema, s.Carries fun v => Json.DistinctKeys v.spread)
    {t t' u : QuoteTable} (ht : t.Arises) (hu : u.Arises) {text : String}
    (h : (encodeModule {} schema).run t = .ok (text, t')) :
    ∃ s u', Source.load text.toList = .ok s ∧
      (encodeModule {} (some s)).run u = .ok (text, u') := by
  -- Without a schema the module is that of a schema without collections.
  obtain ⟨s, hs, hrun⟩ : ∃ s : Schema, s.IsRegular Value.IsCarried ∧
      (encodeModule {} (some s)).run t = .ok (text, t') := by
    cases schema with
    | none =>
      have hnil : (Entries.keys ([] : List (String × Collection))).Nodup := List.nodup_nil
      exact ⟨⟨0, []⟩, ⟨hnil, fun _ hp => absurd hp List.not_mem_nil⟩, h⟩
    | some s =>
      have hregular := (Schema.isRegular_ofValue hdocument hschema).and_carries (hkeys s rfl)
      exact ⟨s, hregular.mono fun v hv => ⟨hv.1, hv.2⟩, h⟩
  have hresult := hs.isSteady_encodeModule.result_eq ht.isSound hrun
  obtain ⟨u', -, hagain⟩ := hs.reloaded.isSteady_encodeModule.exists_run hu.isSound
    (hs.encodeModule_reloaded hresult)
  exact ⟨s.reloaded, u', hs.load_result Source.isSound_default hresult, hagain⟩

/-- A document of one collection: its kind is a text, its optional keys name a missing attribute,
and its rules stand under a number. -/
def noteDocument : Value :=
  .record [("collections", .record [("notes", .record [
    ("schema", .record [("properties", .record [("body", .record [("type", .str "string")])]),
      ("optional", .list [.str "body", .int 7])]),
    ("rules", .mapping [(.int 1, .bool true)])])])]

/-- The schema that is read of `noteDocument`: a body, an optional key that has no attribute, and
rules under a number. -/
def noteSchema : Schema where
  version := 0
  collections := [("notes", {
    schema := { properties := [("body", .primitive (.str "string") {})], optional := ["body", "7"] }
    rules := .mapping [(.int 1, .bool true)] })]

/-- The schema `noteSchema` is read of its document. -/
theorem ofValue_noteDocument : Schema.ofValue noteDocument = .ok (some noteSchema) := by
  cbv

/-- The module of notes can be loaded, and what is loaded has the same module, although its key is
a text. -/
theorem encodeModule_load_noteDocument : ∃ text t s u',
    (encodeModule {} (some noteSchema)).run {} = .ok (text, t) ∧
      Source.load text.toList = .ok s ∧ (encodeModule {} (some s)).run {} = .ok (text, u') := by
  -- Every part is a mapping or a list of scalars, so that no reference stands anywhere in it.
  have hdocument : noteDocument.IsTree := by
    refine .record fun f hf => ?_
    cases List.mem_singleton.mp hf
    refine .record fun f hf => ?_
    cases List.mem_singleton.mp hf
    refine .record fun f hf => ?_
    rcases List.mem_cons.mp hf with rfl | hf
    · refine .record fun f hf => ?_
      rcases List.mem_cons.mp hf with rfl | hf
      · refine .record fun f hf => ?_
        cases List.mem_singleton.mp hf
        refine .record fun f hf => ?_
        cases List.mem_singleton.mp hf
        exact .scalar
      · cases List.mem_singleton.mp hf
        refine .list fun v hv => ?_
        rcases List.mem_cons.mp hv with rfl | hv
        · exact .scalar
        · cases List.mem_singleton.mp hv
          exact .scalar
    · cases List.mem_singleton.mp hf
      refine .mapping fun e he => ?_
      cases List.mem_singleton.mp he
      exact .scalar
  have hkeys : ∀ s ∈ some noteSchema, s.Carries fun v => Json.DistinctKeys v.spread := by
    rintro s ⟨⟩ p hp
    cases List.mem_singleton.mp hp
    refine ⟨fun q hq => ?_, ?_⟩
    · cases List.mem_singleton.mp hq
      exact .primitive
    · exact ⟨List.nodup_singleton _, trivial, trivial⟩
  obtain ⟨s, u', hload, hagain⟩ :=
    encodeModule_load hdocument.isProper ofValue_noteDocument hkeys .empty .empty rfl
  exact ⟨_, _, s, u', rfl, hload, hagain⟩

end SchemaForge
