import Mathlib
import SchemaForge.Proofs.Schema.RoundTrip
import SchemaForge.Proofs.Source.Frame
import SchemaForge.Proofs.Source.Making

/-!
# Which modules are loaded into the data model

A schema lies in the data model (`Schema.IsInModel`) if all targets are texts, settings and ids are
scalars, defaults are scalars or functions of scalars, and conditions, orders and rules are JSON.
The loader copies much of what it finds without a look at it, so it makes such a schema exactly of
those modules that meet the checks which it leaves out (`Checked`, `load_isInModel_iff`).
-/

namespace SchemaForge

/-! ## The data model -/

/-- A scalar of JSON: no time and no byte string, and nothing that has parts. -/
def Value.isSimple : Value → Bool
  | .null => true
  | .bool _ => true
  | .int _ => true
  | .float _ => true
  | .str _ => true
  | _ => false

/-- What may be a default in the data model: a scalar, or a function of scalars. -/
def Value.isDefault : Value → Bool
  | .function _ arguments => arguments.all isSimple
  | v => v.isSimple

/-- Settings in the data model: their nullability is a scalar, and so is their default unless it is
a function of scalars. -/
structure Options.IsInModel (o : Options) : Prop where
  /-- Whether null is allowed. -/
  nullable : o.nullable.isSimple = true
  /-- The default. -/
  default : ∀ d ∈ o.default, d.isDefault = true

/-- A query in the data model, as that of a relation of some cardinality: its condition and its
order are JSON, and its limit and an id are scalars. -/
structure Query.IsInModel (cardinality : Value) (q : Query) : Prop where
  /-- The filter clauses. -/
  condition : q.condition.IsJson
  /-- How many members at most. -/
  limit : q.limit.isSimple = true
  /-- The order. -/
  order : q.order.IsJson
  /-- The id, if the query selects one member by it. -/
  id : ∀ id, Source.relationId? cardinality q = some id → id.isSimple = true

/-- Attributes in the data model of section 3 of the specification: targets are texts, and settings
and queries lie in the data model. -/
inductive Attribute.IsInModel : Attribute → Prop
  /-- An attribute of a primitive kind. -/
  | primitive {kind : String} {o : Options} (ho : o.IsInModel) :
      IsInModel (.primitive (.str kind) o)
  /-- A set. -/
  | set {items : Attribute} {o : Options} (h : IsInModel items) (ho : o.IsInModel) :
      IsInModel (.set items o)
  /-- A record. -/
  | record {properties : List (String × Attribute)} {optional : List String}
      (h : ∀ p ∈ properties, IsInModel p.2) : IsInModel (.record properties optional)
  /-- A relation to the collection of a name. -/
  | relation {cardinality : Value} {target : String} {query : Query}
      (hq : query.IsInModel cardinality) : IsInModel (.relation cardinality (.str target) query)

/-- A schema in the data model: its attributes lie in it, at every depth, and its rules are JSON. -/
def Schema.IsInModel (s : Schema) : Prop :=
  ∀ c ∈ s.collections, (∀ p ∈ c.2.schema.properties, p.2.IsInModel) ∧ c.2.rules.IsJson

/-- A scalar that JSON has is a JSON value. -/
theorem Value.IsJson.of_isSimple {v : Value} (h : v.isSimple = true) : v.IsJson := by
  unfold isSimple at h
  split at h
  · exact .null
  · exact .bool
  · exact .int
  · exact .float
  · exact .str
  · cases h

namespace Source

variable {builder name : String} {v : Value} {arguments : List Value}
  {members : List (Scalar × Value)}

/-! ## The checks that the loader leaves out -/

/-- An expression that may be a default: a scalar, or a call with scalars as arguments. -/
def isDefaultExpression : Value → Bool
  | .call _ arguments => arguments.all Value.isSimple
  | v => v.isDefault

/-- The checks of an object of options that `loadOptions` leaves out. -/
structure CheckedOptions (members : List (Scalar × Value)) : Prop where
  /-- Whether null is allowed is a scalar. -/
  nullable : (member "nullable" members).isSimple = true
  /-- The default is a scalar, or calls a function of scalars. -/
  default : ∀ d, Value.field? "default" members = some d → isDefaultExpression d = true

/-- The checks of a call of a constructor that the loader leaves out: of its target, its id, its
query and its options. -/
@[mk_iff]
structure CheckedCall (name : String) (arguments : List Value) : Prop where
  /-- The options of an attribute of a primitive kind are its first argument. -/
  options : (kindOf? name).isSome = true →
    ∀ members, arguments.head? = some (.mapping members) → CheckedOptions members
  /-- The options of a set are its second argument. -/
  setOptions : name = "Set" →
    ∀ members, arguments.tail.head? = some (.mapping members) → CheckedOptions members
  /-- The target of a relation is a text. -/
  target : name ∈ "RelationById" :: relationConstructors.map (·.1) →
    ∃ target : String, arguments.head? = some (.str target)
  /-- The id is a scalar. -/
  id : name = "RelationById" → ∀ id, arguments.tail.head? = some id → id.isSimple = true
  /-- The condition and the order are JSON, and the limit is a scalar; and so is the id, where the
  query selects one member by it. -/
  query : ∀ cardinality, (name, cardinality) ∈ relationConstructors →
    ∀ members, arguments.tail.head?.getD (.mapping []) = .mapping members →
      (queryOf members).IsInModel (.str cardinality)

/-- An expression all of whose calls of constructors meet the checks, at every depth. -/
inductive Checked (builder : String) : Value → Prop
  /-- A call, with the attributes that it is made of. -/
  | call {name : String} {arguments : List Value} (hcall : CheckedCall name arguments)
      (hfirst : name = "Optional" ∨ name = "Set" → ∀ v ∈ arguments.head?, Checked builder v)
      (hmembers : name = "Record" → ∀ members, arguments.head? = some (.mapping members) →
        ∀ e ∈ members, Checked builder e.2) :
      Checked builder (.call [builder, name] arguments)

/-- The checks of a collection: those of its attributes, and that its rules are JSON. -/
structure CheckedCollection (builder : String) (members : List (Scalar × Value)) : Prop where
  /-- The attributes. -/
  schema : ∀ path arguments attributes,
    Value.field? "schema" members = some (.call path arguments) →
      arguments.head? = some (.mapping attributes) → ∀ e ∈ attributes, Checked builder e.2
  /-- The rules. -/
  rules : (member "rules" members).IsJson

/-- The checks of an exported object: `CheckedCollection` holds of each collection in it. -/
def CheckedExport (builder : String) (v : Value) : Prop :=
  ∀ collections, v = .mapping collections →
    ∀ e ∈ collections, ∀ members, e.2 = .mapping members → CheckedCollection builder members

/-! ## Settings -/

/-- The default that `loadDefault` makes lies in the data model exactly if its expression is
checked. -/
theorem isDefault_of_loadDefault {d : Value} (h : loadDefault builder v = .ok d) :
    d.isDefault = isDefaultExpression v := by
  unfold loadDefault at h
  split at h
  · split_ifs at h
    cases h
    rfl
  · cases h
  · rename_i hcall
    cases h
    unfold isDefaultExpression
    split
    · exact absurd rfl (hcall _ _)
    · rfl

/-- The settings that `loadOptions` makes lie in the data model exactly if the object of options is
checked. -/
theorem isInModel_of_loadOptions {o : Options} (h : loadOptions builder arguments = .ok o) :
    o.IsInModel ↔
      ∀ members, arguments.head? = some (.mapping members) → CheckedOptions members := by
  unfold loadOptions at h
  split at h
  · cases h
    exact iff_of_true ⟨rfl, fun d hd => nomatch hd⟩ fun members hm => nomatch hm
  · rename_i members rest
    have hhead : (∀ ms, (Value.mapping members :: rest).head? = some (.mapping ms) →
        CheckedOptions ms) ↔ CheckedOptions members :=
      ⟨fun h => h members rfl, fun h ms hms => by cases hms; exact h⟩
    -- What is left to be compared is the default, which is made of the value under its key.
    rw [hhead]
    split at h
    · rename_i hnone
      cases h
      constructor
      · rintro ⟨hnullable, -⟩
        exact ⟨hnullable, fun d hd => nomatch hnone.symm.trans hd⟩
      · rintro ⟨hnullable, -⟩
        exact ⟨hnullable, fun d hd => nomatch hd⟩
    · rename_i d hd
      obtain ⟨d', hd', h⟩ := Outcome.bind_eq_ok.mp h
      cases h
      have hdefault := isDefault_of_loadDefault hd'
      constructor
      · rintro ⟨hnullable, hin⟩
        refine ⟨hnullable, fun x hx => ?_⟩
        cases hd.symm.trans hx
        rw [← hdefault]
        exact hin d' rfl
      · rintro ⟨hnullable, hin⟩
        refine ⟨hnullable, fun x hx => ?_⟩
        cases hx
        rw [hdefault]
        exact hin d hd
  · cases h

/-! ## Attributes -/

/-- The condition that demands an id lies in the data model exactly if the id is a scalar. -/
theorem isInModel_idCondition {id : Value} :
    ({ condition := idCondition id } : Query).IsInModel (.str "one") ↔ id.isSimple = true := by
  constructor
  · exact fun h => h.id id rfl
  · intro h
    have hid : (idCondition id).IsJson := by
      refine .list (List.forall_mem_singleton.mpr (.list ?_))
      exact List.forall_mem_cons.mpr ⟨.str, List.forall_mem_cons.mpr
        ⟨.str, List.forall_mem_singleton.mpr (.of_isSimple h)⟩⟩
    refine ⟨hid, rfl, .null, fun x hx => ?_⟩
    cases hx
    exact h

/-- An attribute of a primitive kind lies in the data model exactly if its settings do. -/
theorem isInModel_primitive_iff {kind : String} {o : Options} :
    (Attribute.primitive (.str kind) o).IsInModel ↔ o.IsInModel := by
  constructor
  · rintro ⟨⟩
    assumption
  · exact .primitive

/-- A set lies in the data model exactly if its items and its settings do. -/
theorem isInModel_set_iff {items : Attribute} {o : Options} :
    (Attribute.set items o).IsInModel ↔ items.IsInModel ∧ o.IsInModel := by
  constructor
  · rintro ⟨⟩
    exact ⟨‹_›, ‹_›⟩
  · exact fun h => .set h.1 h.2

/-- A record `IsInModel` exactly if its properties are, for optional keys are texts in any case. -/
theorem isInModel_record_iff {properties : List (String × Attribute)} {optional : List String} :
    (Attribute.record properties optional).IsInModel ↔ ∀ p ∈ properties, p.2.IsInModel := by
  constructor
  · rintro ⟨⟩
    assumption
  · exact .record

/-- A relation lies in the data model exactly if its target is a text and its query does. -/
theorem isInModel_relation_iff {cardinality target : Value} {q : Query} :
    (Attribute.relation cardinality target q).IsInModel ↔
      (∃ t : String, target = .str t) ∧ q.IsInModel cardinality := by
  constructor
  · rintro ⟨⟩
    exact ⟨⟨_, rfl⟩, ‹_›⟩
  · rintro ⟨⟨t, rfl⟩, hq⟩
    exact .relation hq

/-- A call is checked exactly if its own checks are met and the attributes that it is made of are
checked. -/
theorem checked_call_iff :
    Checked builder (.call [builder, name] arguments) ↔
      CheckedCall name arguments ∧
      (name = "Optional" ∨ name = "Set" → ∀ v ∈ arguments.head?, Checked builder v) ∧
      (name = "Record" → ∀ members, arguments.head? = some (.mapping members) →
        ∀ e ∈ members, Checked builder e.2) := by
  constructor
  · rintro ⟨hcall, hfirst, hmembers⟩
    exact ⟨hcall, hfirst, hmembers⟩
  · rintro ⟨hcall, hfirst, hmembers⟩
    exact .call hcall hfirst hmembers

/-- A tree lies in the data model exactly if the expressions of its members are checked, if that
holds of each attribute. -/
theorem isInModel_treeOf_iff {made : List ((Scalar × Value) × Attribute × Bool)}
    (h : ∀ m ∈ made, m.2.1.IsInModel ↔ Checked builder m.1.2) :
    (∀ p ∈ (treeOf made).properties, p.2.IsInModel) ↔
      ∀ e ∈ made.map (·.1), Checked builder e.2 := by
  rw [treeOf, List.forall_mem_map, List.forall_mem_map]
  exact forall₂_congr h

/-- An attribute lies in the data model exactly if the expression of which it is made is checked.
The induction is on `Makes`. -/
theorem Makes.isInModel_iff {a : Attribute} {flag : Bool} (h : Makes builder v a flag) :
    a.IsInModel ↔ Checked builder v := by
  -- The checks are those of all constructors. In each case the name of the constructor leaves its
  -- own ones, and these are what the data model asks of the attribute.
  induction h with
  | optional _ ih =>
    rw [ih, checked_call_iff, checkedCall_iff]
    simp [kindOf?_compound, relationConstructors]
  | @primitive name _ _ _ hkind ho =>
    have hne {n : String} (hn : kindOf? n = none) : name ≠ n := by
      rintro rfl
      cases hkind.symm.trans hn
    rw [isInModel_primitive_iff, isInModel_of_loadOptions ho, checked_call_iff, checkedCall_iff]
    simp [hkind, hne, kindOf?_compound, relationConstructors]
  | set _ ho ih =>
    rw [isInModel_set_iff, ih, isInModel_of_loadOptions ho, checked_call_iff, checkedCall_iff]
    simp [kindOf?_compound, relationConstructors, and_comm]
  | record _ ih =>
    rw [AttributeTree.toRecord, isInModel_record_iff, isInModel_treeOf_iff ih, checked_call_iff,
      checkedCall_iff]
    simp [kindOf?_compound, relationConstructors]
  | relationById =>
    rw [isInModel_relation_iff, isInModel_idCondition, checked_call_iff, checkedCall_iff]
    simp [kindOf?_compound, relationConstructors]
  | relation hname hquery =>
    rw [isInModel_relation_iff, checked_call_iff, checkedCall_iff]
    obtain ⟨rfl, rfl⟩ | ⟨rfl, rfl⟩ := mem_relationConstructors.mp hname
    all_goals simp [kindOf?_compound, relationConstructors, hquery]

/-! ## Schemas -/

/-- The tree that `loadMembers` makes lies in the data model exactly if the expressions of the
members are checked. -/
theorem isInModel_of_loadMembers {t : AttributeTree} (h : loadMembers builder members = .ok t) :
    (∀ p ∈ t.properties, p.2.IsInModel) ↔ ∀ e ∈ members, Checked builder e.2 := by
  obtain ⟨made, rfl, rfl, hmade⟩ := exists_made_of_loadMembers h
  exact isInModel_treeOf_iff fun m hm => (makes_of_loadAttribute (hmade m hm)).isInModel_iff

/-- The tree that `loadRoot` makes lies in the data model exactly if the members in the call of
`Schema` are checked; without them it is empty. -/
theorem isInModel_of_loadRoot {t : AttributeTree} (h : loadRoot builder v = .ok t) :
    (∀ p ∈ t.properties, p.2.IsInModel) ↔ ∀ path arguments attributes, v = .call path arguments →
      arguments.head? = some (.mapping attributes) → ∀ e ∈ attributes, Checked builder e.2 := by
  obtain ⟨arguments, rfl, htree⟩ := loadRoot_eq_ok.mp h
  obtain ⟨members, hmembers, hload⟩ := loadTree_eq_ok.mp htree
  rw [isInModel_of_loadMembers hload]
  cases arguments with
  | nil =>
    cases hmembers
    exact iff_of_true nofun fun _ _ _ heq hhead => by cases heq; cases hhead
  | cons w rest =>
    rw [List.head?_cons, Option.getD_some] at hmembers
    subst hmembers
    constructor
    · rintro hchecked _ _ _ ⟨⟩ ⟨⟩
      exact hchecked
    · exact fun hchecked => hchecked _ _ _ rfl rfl

/-- The collection that `loadCollection` makes lies in the data model exactly if its object is
checked. -/
theorem isInModel_of_loadCollection {c : Collection} (h : loadCollection builder name v = .ok c) :
    ((∀ p ∈ c.schema.properties, p.2.IsInModel) ∧ c.rules.IsJson) ↔
      ∀ members, v = .mapping members → CheckedCollection builder members := by
  obtain ⟨members, root, t, rfl, hroot, hload, rfl⟩ := loadCollection_eq_ok.mp h
  rw [isInModel_of_loadRoot hload]
  constructor
  · rintro ⟨hschema, hrules⟩ _ ⟨⟩
    refine ⟨fun path arguments attributes hcall => hschema path arguments attributes ?_, hrules⟩
    exact Option.some.inj (hroot.symm.trans hcall)
  · intro hchecked
    obtain ⟨hschema, hrules⟩ := hchecked members rfl
    exact ⟨fun path arguments attributes heq =>
      hschema path arguments attributes (hroot.trans (congrArg some heq)), hrules⟩

/-- The collections that `loadCollections` makes lie in the data model exactly if the objects of all
of them are checked. -/
theorem isInModel_of_loadCollections {collections : List (String × Collection)}
    (h : loadCollections builder members = .ok collections) :
    (⟨0, collections⟩ : Schema).IsInModel ↔
      ∀ e ∈ members, ∀ ms, e.2 = .mapping ms → CheckedCollection builder ms := by
  unfold Schema.IsInModel
  -- The collections are those of the members one by one, so both sides are asked of each.
  induction members generalizing collections with
  | nil =>
    cases h
    exact iff_of_true nofun nofun
  | cons e rest ih =>
    obtain ⟨c, hc, h⟩ := Outcome.bind_eq_ok.mp h
    obtain ⟨cs, hcs, h⟩ := Outcome.bind_eq_ok.mp h
    cases h
    rw [List.forall_mem_cons, List.forall_mem_cons, ← ih hcs, ← isInModel_of_loadCollection hc]

/-- The schema that `loadSchema` makes lies in the data model exactly if the exported object is
checked. -/
theorem isInModel_of_loadSchema {s : Schema} (h : loadSchema builder v = .ok s) :
    s.IsInModel ↔ CheckedExport builder v := by
  cases v with
  | mapping members =>
    obtain ⟨collections, hload, h⟩ := Outcome.bind_eq_ok.mp h
    cases h
    rw [isInModel_of_loadCollections hload]
    constructor
    · rintro hchecked _ ⟨⟩
      exact hchecked
    · exact fun hchecked => hchecked members rfl
  | _ => cases h

/-- The alias of the constructors in the text of a module, and the value that it exports. -/
def exported (text : List Char) : Except Error (String × Value) := do
  parseModule text.length ((← tokens text).length + 1) load.builderAlias (← tokens text)

/-- The loader `load` is `exported` and then `loadSchema`. -/
theorem load_eq_bind (text : List Char) :
    load text = exported text >>= fun r => loadSchema r.1 r.2 := by
  unfold load exported
  cases tokens text <;> rfl

/-- A schema that is loaded lies in the data model exactly if the object that the text exports meets
the checks that the loader leaves out (`CheckedExport`). -/
theorem load_isInModel_iff {text : List Char} {s : Schema} (h : load text = .ok s) :
    ∃ builder v, exported text = .ok (builder, v) ∧ (s.IsInModel ↔ CheckedExport builder v) := by
  rw [load_eq_bind] at h
  obtain ⟨⟨builder, v⟩, hexported, h⟩ := Outcome.bind_eq_ok.mp h
  exact ⟨builder, v, hexported, isInModel_of_loadSchema h⟩

/-- A module of one collection with a relation by id, whose target is written as a text. -/
def relationText (target : String) : String :=
  moduleText {} (inlineObject [("a", inlineObject [("schema", construct "Schema"
    [inlineObject [("x", construct "RelationById" [target, Json.quote "me"])]])])])

/-- The schema of the module with one relation by id, by the value of its target. -/
def relationSchema (target : Value) : Schema where
  version := 0
  collections := [("a", {
    schema := {
      properties := [("x", .relation (.str "one") target
        { condition := idCondition (.str "me") })]
      optional := [] } })]

/-- An object of one member in a line denotes the mapping with the one entry. -/
theorem denotes_singleton {key text : String} (hkey : isName key = true) (hclose : key ∉ closers)
    (h : Denotes text v) : Denotes (inlineObject [(key, text)]) (.record [(key, v)]) :=
  denotes_inlineObject (List.nodup_singleton key) (.cons (spellsOne_name hkey hclose h) .nil)

/-- Whatever the text of the target denotes is taken for the target, be it a text or not. -/
theorem load_relationText {target : String} (ht : target.isEmpty = false) (h : Denotes target v) :
    load (relationText target).toList = .ok (relationSchema v) := by
  have hx : Denotes (construct "RelationById" [target, Json.quote "me"])
      (.call ["S", "RelationById"] [v, .str "me"]) := by
    refine denotes_construct (by decide) ?_
    rw [List.filter_cons_of_pos (by simp [ht])]
    exact .cons h (.cons (denotes_quote "me") .nil)
  have hroot : Denotes (construct "Schema" [inlineObject [("x", _)]]) (.call ["S", "Schema"] [_]) :=
    denotes_construct (by decide) (.cons (denotes_singleton (by decide) (by decide) hx) .nil)
  have hbody : Denotes _ (.record [("a", .record [("schema", _)])]) :=
    denotes_singleton (by decide) (by decide) (denotes_singleton (by decide) (by decide) hroot)
  rw [relationText, load_moduleText isSound_default hbody]
  cbv

/-- A text as the target is checked, and makes a schema in the data model. -/
theorem load_isInModel_iff_textTarget :
    load (relationText (Json.quote "b")).toList = .ok (relationSchema (.str "b")) ∧
      (relationSchema (.str "b")).IsInModel ∧
      ∃ builder v, exported (relationText (Json.quote "b")).toList = .ok (builder, v) ∧
        CheckedExport builder v := by
  have hload := load_relationText (by decide) (denotes_quote "b")
  have hmodel : (relationSchema (.str "b")).IsInModel := by
    refine List.forall_mem_singleton.mpr ⟨List.forall_mem_singleton.mpr ?_, .null⟩
    exact .relation (isInModel_idCondition.mpr rfl)
  obtain ⟨builder, v, hexported, hiff⟩ := load_isInModel_iff hload
  exact ⟨hload, hmodel, builder, v, hexported, hiff.mp hmodel⟩

/-- The call of a constructor as the target is not looked at, and makes a schema that does not lie
in the data model, against section 6.4 of the specification. -/
theorem load_callTarget :
    load (relationText (construct "Id" [])).toList
      = .ok (relationSchema (.call ["S", "Id"] [])) ∧
    ¬ (relationSchema (.call ["S", "Id"] [])).IsInModel := by
  refine ⟨load_relationText rfl (denotes_construct (by decide) .nil), fun hmodel => ?_⟩
  obtain ⟨hx, -⟩ := hmodel _ List.mem_cons_self
  cases hx _ List.mem_cons_self

end Source

end SchemaForge
