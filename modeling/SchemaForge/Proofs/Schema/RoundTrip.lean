import SchemaForge.Proofs.Source.Module

/-!
# The round trip of a schema through a module

This is the round trip of section 6.4 of the specification. A schema whose conditions, orders and
rules are JSON with text keys is read back from its module exactly, with two exceptions: the version
becomes 0, and of the optional keys of a tree those remain that belong to attributes of the tree
which are no relations (`Schema.cutDown`).
-/

namespace SchemaForge

/-! ## JSON -/

/-- A JSON value as a parser gives it: numbers are finite, and the keys of an object are distinct
texts. -/
inductive Value.IsJson : Value → Prop
  /-- The absent value. -/
  | null : IsJson .null
  /-- A truth value. -/
  | bool {b : Bool} : IsJson (.bool b)
  /-- An integer. -/
  | int {n : ℤ} : IsJson (.int n)
  /-- A number. -/
  | float {x : Double} : IsJson (.float x)
  /-- A text. -/
  | str {s : String} : IsJson (.str s)
  /-- An array. -/
  | list {items : List Value} (h : ∀ v ∈ items, IsJson v) : IsJson (.list items)
  /-- An object. -/
  | record {fields : List (String × Value)} (hn : (Entries.keys fields).Nodup)
      (h : ∀ f ∈ fields, IsJson f.2) : IsJson (.mapping (textEntries fields))

namespace Json

/-- Several values are `AllDistinct` when each of them has distinct keys. -/
theorem allDistinct_iff {vs : List Value} : AllDistinct vs ↔ ∀ v ∈ vs, DistinctKeys v := by
  induction vs with
  | nil => exact iff_of_true trivial fun _ hv => absurd hv List.not_mem_nil
  | cons v vs ih => rw [AllDistinct, ih, List.forall_mem_cons]

/-- The entries of a mapping are `EntriesDistinct` when the value of each of them has distinct
keys. -/
theorem entriesDistinct_iff {entries : List (Scalar × Value)} :
    EntriesDistinct entries ↔ ∀ e ∈ entries, DistinctKeys e.2 := by
  induction entries with
  | nil => exact iff_of_true trivial fun _ he => absurd he List.not_mem_nil
  | cons e entries ih => rw [EntriesDistinct, ih, List.forall_mem_cons]

/-- The members that are read back under the text keys of fields are the fields, with the `image` of
each value. -/
theorem imageFields_textEntries (fields : List (String × Value)) :
    imageFields (textEntries fields) = fields.map fun f => (f.1, image f.2) := by
  induction fields with
  | nil => rfl
  | cons f fields ih =>
    show (f.1, image f.2) :: imageFields (textEntries fields) = _
    rw [ih, List.map_cons]

end Json

namespace Value.IsJson

variable {v : Value}

/-- A value as JSON gives it is a tree. -/
theorem isTree (h : v.IsJson) : v.IsTree := by
  induction h with
  | list _ ih => exact .list ih
  | record _ _ ih =>
    refine .mapping fun e he => ?_
    obtain ⟨f, hf, rfl⟩ := List.mem_map.mp he
    exact ih f hf
  | _ => exact .scalar

/-- In JSON the keys of objects have distinct texts, being distinct texts themselves. -/
theorem distinctKeys (h : v.IsJson) : Json.DistinctKeys v := by
  induction h with
  | list _ ih => exact Json.allDistinct_iff.mpr ih
  | @record fields hn _ ih =>
    refine ⟨?_, Json.entriesDistinct_iff.mpr fun e he => ?_⟩
    · rw [textEntries, List.map_map]
      exact hn
    · obtain ⟨f, hf, rfl⟩ := List.mem_map.mp he
      exact ih f hf
  | _ => exact trivial

/-- JSON is read back as it is: it has neither sequences of fixed length nor other keys than
texts. -/
theorem image_eq (h : v.IsJson) : Json.image v = v := by
  induction h with
  | list _ ih =>
    rw [Json.image, Source.images_eq_map, Value.map_eq_self ih]
  | @record fields hn _ ih =>
    rw [Json.image, Json.imageFields_textEntries, Value.map_eq_self, Entries.ofPairs_of_nodup hn]
    · rfl
    · intro f hf
      rw [ih f hf]
  | _ => rfl

/-- Each JSON value `IsCarried` by a module, for it is a tree of literals. -/
theorem isCarried (h : v.IsJson) : v.IsCarried :=
  ⟨h.isTree.isProper, by rw [h.isTree.spread]; exact h.distinctKeys⟩

/-- A value as JSON gives it is carried by a module as it is. -/
theorem reloaded (h : v.IsJson) : v.reloaded = v := by
  rw [Value.reloaded, h.isTree.spread, h.image_eq]

/-- A value in JSON that has list items is a list, and its items are JSON values. -/
theorem of_listItems? (h : v.IsJson) {items : List Value} (hv : v.listItems? = some items) :
    v = .list items ∧ ∀ i ∈ items, i.IsJson := by
  cases h with
  | list h =>
    cases hv
    exact ⟨rfl, h⟩
  | _ => cases hv

end Value.IsJson

/-- A condition in JSON that demands an id is the clause that the short form of a relation by id
stands for. -/
theorem Source.eq_idCondition {v id : Value} (h : v.IsJson) (hid : demandedId? v = some id) :
    v = idCondition id := by
  unfold demandedId? at hid
  -- The condition is a list of one clause, and the clause a list of three, or there is no id.
  split at hid
  · rename_i clause hclause
    obtain ⟨rfl, hitems⟩ := h.of_listItems? hclause
    split at hid
    · rename_i field operator x hparts
      obtain ⟨rfl, -⟩ := (hitems clause List.mem_cons_self).of_listItems? hparts
      split_ifs at hid with hsame
      cases hid
      obtain ⟨hfield, hoperator⟩ := Bool.and_eq_true_iff.mp hsame
      rw [Value.eq_str_of_same hfield, Value.eq_str_of_same hoperator]
      rfl
    · cases hid
  · cases hid

/-- A query whose condition and order are JSON is read back as it is, also when it is written by
id. -/
theorem Query.reloaded_of_isJson {q : Query} {cardinality : Value} (hw : q.condition.IsJson)
    (ho : q.order.IsJson) : q.reloaded cardinality = q := by
  obtain ⟨condition, limit, order⟩ := q
  unfold Query.reloaded
  -- A query that is only an id is loaded from it, and the condition made of the id is the one it
  -- had.
  cases hid : Source.relationId? cardinality ⟨condition, limit, order⟩ with
  | none =>
    rw [hw.reloaded, ho.reloaded]
  | some id =>
    unfold Source.relationId? at hid
    split_ifs at hid with hset
    obtain ⟨hset, horder⟩ := Bool.and_eq_true_iff.mp hset
    obtain ⟨-, hlimit⟩ := Bool.and_eq_true_iff.mp hset
    obtain rfl : condition = _ := Source.eq_idCondition hw hid
    obtain rfl : limit = _ := Value.eq_null_of_isNull hlimit
    obtain rfl : order = _ := Value.eq_null_of_isNull horder
    rfl

/-! ## What is lost -/

mutual

/-- The attribute with the optional keys of its trees cut down to `ownOptional`: the keys of their
attributes that are no relations. -/
def Attribute.cutDown : Attribute → Attribute
  | .record properties optional =>
    .record (cutDownProperties properties) (ownOptional optional properties)
  | a => a

/-- Each of several attributes is cut down, under the key it has. -/
def cutDownProperties : List (String × Attribute) → List (String × Attribute)
  | [] => []
  | (key, a) :: rest => (key, a.cutDown) :: cutDownProperties rest

end

/-- The tree with its optional keys, and those of the trees in it, cut down. -/
def AttributeTree.cutDown (t : AttributeTree) : AttributeTree :=
  ⟨cutDownProperties t.properties, ownOptional t.optional t.properties⟩

/-- The collection with the optional keys of all its trees cut down, as `AttributeTree.cutDown` does
it. -/
def Collection.cutDown (c : Collection) : Collection := { c with schema := c.schema.cutDown }

/-- The schema with the optional keys of all its trees cut down; all else is kept. -/
def Schema.cutDown (s : Schema) : Schema :=
  { s with collections := s.collections.map fun p => (p.1, p.2.cutDown) }

/-- Several attributes are cut down one by one, so that `cutDownProperties` is a map over them. -/
theorem cutDownProperties_eq_map (properties : List (String × Attribute)) :
    cutDownProperties properties = properties.map fun p => (p.1, p.2.cutDown) := by
  induction properties with
  | nil => rfl
  | cons p properties ih => rw [cutDownProperties, ih, List.map_cons]

/-- What a module keeps of an attribute that carries JSON is the attribute `cutDown`. -/
theorem Attribute.reloaded_of_isJson {a : Attribute} (h : a.IsRegular Value.IsJson) :
    a.reloaded = a.cutDown := by
  induction h with
  | @record properties optional _ _ ih =>
    rw [Attribute.reloaded, Attribute.cutDown, reloadedProperties_eq_map, cutDownProperties_eq_map]
    congr 1
    exact List.map_congr_left fun p hp => by rw [ih p hp]
  | relation hc hw ho => exact congrArg _ (Query.reloaded_of_isJson hw ho)
  | _ => rfl

/-- A collection that carries JSON is kept but for optional keys: what is `reloaded` is what is
`cutDown`. -/
theorem Collection.reloaded_of_isJson {c : Collection} (h : c.IsRegular Value.IsJson) :
    c.reloaded = c.cutDown := by
  have hproperties : reloadedProperties c.schema.properties
      = cutDownProperties c.schema.properties := by
    rw [reloadedProperties_eq_map, cutDownProperties_eq_map]
    exact List.map_congr_left fun p hp => by rw [Attribute.reloaded_of_isJson (h.properties p hp)]
  rw [Collection.reloaded, AttributeTree.reloaded, hproperties, h.rules.reloaded]
  rfl

/-- What a module keeps of a schema that carries JSON is the schema `cutDown`, with version 0. -/
theorem Schema.reloaded_of_isJson {s : Schema} (h : s.IsRegular Value.IsJson) :
    s.reloaded = { s.cutDown with version := 0 } := by
  rw [Schema.reloaded, Schema.cutDown]
  congr 1
  exact List.map_congr_left fun p hp => by
    rw [Collection.reloaded_of_isJson (h.collections p hp)]

/-- A regular schema that carries JSON is read back from its module, whatever quotes were
remembered: exactly, and in the same order, but for its version and for optional keys that are not
of attributes or are of relations (`Schema.cutDown`). -/
theorem load_encodeModule {s : Schema} (hs : s.IsRegular Value.IsJson) {t t' : QuoteTable}
    (ht : t.Arises) {text : String} (h : (encodeModule {} (some s)).run t = .ok (text, t')) :
    Source.load text.toList = .ok { s.cutDown with version := 0 } := by
  have hcarried := hs.mono fun _ => Value.IsJson.isCarried
  rw [← Schema.reloaded_of_isJson hs]
  exact hcarried.load_result Source.isSound_default
    (hs.isSteady_encodeModule.result_eq ht.isSound h)

/-- A schema of one collection: an optional text, a relation by id that is listed as optional, and
rules. -/
def taskSchema : Schema where
  version := 3
  collections := [("tasks", {
    schema := {
      properties := [("title", .primitive (.str "string") { default := some .null }),
        ("owner", .relation (.str "one") (.str "users")
          { condition := Source.idCondition (.str "it's") })]
      optional := ["owner", "title", "gone"] }
    rules := .record [("read", .record [("all", .list [.bool true, .int (-1)])])] })]

/-- The schema of tasks is written, and comes back without its version, and with one optional key
of three. -/
theorem load_encodeModule_taskSchema : ∃ text t',
    (encodeModule {} (some taskSchema)).run {} = .ok (text, t') ∧
      Source.load text.toList = .ok { taskSchema.cutDown with version := 0 } := by
  -- The condition that stands for an id has a quote in it, and it is JSON all the same.
  have hcondition : (Source.idCondition (.str "it's")).IsJson := by
    refine .list fun v hv => ?_
    cases List.mem_singleton.mp hv
    refine .list fun v hv => ?_
    simp only [List.mem_cons, List.not_mem_nil, or_false] at hv
    rcases hv with rfl | rfl | rfl <;> exact .str
  have hrules : Value.IsJson
      (.record [("read", .record [("all", .list [.bool true, .int (-1)])])]) := by
    refine .record (by decide) fun f hf => ?_
    cases List.mem_singleton.mp hf
    refine .record (by decide) fun f hf => ?_
    cases List.mem_singleton.mp hf
    refine .list fun v hv => ?_
    simp only [List.mem_cons, List.not_mem_nil, or_false] at hv
    rcases hv with rfl | rfl
    · exact .bool
    · exact .int
  have hs : taskSchema.IsRegular Value.IsJson := by
    refine ⟨by decide, fun p hp => ?_⟩
    cases List.mem_singleton.mp hp
    refine ⟨by decide, fun p hp => ?_, hrules⟩
    rcases List.mem_cons.mp hp with rfl | hp
    · exact .primitive
    · cases List.mem_singleton.mp hp
      exact .relation List.mem_cons_self hcondition .null
  exact ⟨_, _, rfl, load_encodeModule hs .empty rfl⟩

end SchemaForge
