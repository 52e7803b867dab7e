import SchemaForge.Proofs.Schema.RoundTrip
import SchemaForge.Schema.Equality

/-!
# Schemas that are the same

Section 6.4 of the specification has a schema come back from its module equal but for its version.
Schemas are compared by `Schema.same` there, for which neither the order of collections and
attributes counts nor that of optional keys, while the theorems of this library state equality of
all that a schema is. What is equal is the same, under the one condition that the keys of mappings
are distinct (`Value.IsDistinct.same_self`). So what section 6.4 says holds of every schema of which
a module keeps all optional keys (`Schema.IsKept`): such a schema is the same as `Schema.cutDown`
makes of it, and its module is loaded as the same schema (`Schema.IsKept.same_load`).
-/

namespace SchemaForge

/-! ## Values -/

/-- Every scalar `agrees` with itself, and so does a number that is none. -/
theorem Scalar.agrees_self (s : Scalar) : s.agrees s = true := by
  cases s with
  | float x => simp [agrees]
  | time t =>
    show t.agrees t = true
    unfold Timestamp.agrees
    cases t.instant? <;> simp
  | _ => simp [agrees, integer?]

/-- Where no two keys agree, `Entries.get?` finds every entry under its key. -/
theorem Entries.get?_of_disagree {α : Type} {entries : List (Scalar × α)}
    (hn : entries.Pairwise fun e f => (e.1 == f.1) = false) {e : Scalar × α} (he : e ∈ entries) :
    Entries.get? e.1 entries = some e.2 := by
  induction hn with
  | nil => exact absurd he List.not_mem_nil
  | @cons first rest hfirst _ ih =>
    unfold Entries.get?
    rcases List.mem_cons.mp he with rfl | he
    · exact if_pos e.1.agrees_self
    · rw [if_neg (by rw [hfirst e he]; exact Bool.false_ne_true)]
      exact ih he

namespace Value

/-- The keys of every mapping in a value are distinct, as they are in documents. This is all that
`Value.same` needs to be reflexive. -/
inductive IsDistinct : Value → Prop
  /-- A scalar. -/
  | scalar {s : Scalar} : IsDistinct (.scalar s)
  /-- A list of such values. -/
  | list {items : List Value} (h : ∀ v ∈ items, IsDistinct v) : IsDistinct (.list items)
  /-- A sequence of fixed length of such values. -/
  | tuple {items : List Value} (h : ∀ v ∈ items, IsDistinct v) : IsDistinct (.tuple items)
  /-- A mapping to such values, in which no two keys agree. -/
  | mapping {entries : List (Scalar × Value)}
      (hn : entries.Pairwise fun e f => (e.1 == f.1) = false)
      (h : ∀ e ∈ entries, IsDistinct e.2) : IsDistinct (.mapping entries)
  /-- A set. -/
  | set {members : List Scalar} : IsDistinct (.set members)
  /-- A function with such arguments. -/
  | function {name : String} {arguments : List Value} (h : ∀ v ∈ arguments, IsDistinct v) :
      IsDistinct (.function name arguments)
  /-- A call with such arguments. -/
  | call {path : List String} {arguments : List Value} (h : ∀ v ∈ arguments, IsDistinct v) :
      IsDistinct (.call path arguments)
  /-- A knot of such nodes. -/
  | knot {n : ℕ} {nodes : List Value} (h : ∀ v ∈ nodes, IsDistinct v) :
      IsDistinct (.knot n nodes)
  /-- A link in a knot. -/
  | link {n : ℕ} {keyed : Bool} : IsDistinct (.link n keyed)

/-- A list of values that are the same as themselves is `sameAll` as itself. -/
theorem sameAll_self {items : List Value} (h : ∀ v ∈ items, v.same v = true) :
    sameAll items items = true := by
  induction items with
  | nil => simp [sameAll]
  | cons v items ih =>
    obtain ⟨hv, hitems⟩ := List.forall_mem_cons.mp h
    simp [sameAll, hv, ih hitems]

/-- Entries are `sameEntries` as those of a mapping in which each of their keys has the same
value. -/
theorem sameEntries_of_forall {entries others : List (Scalar × Value)}
    (h : ∀ e ∈ entries, ∃ w, Entries.get? e.1 others = some w ∧ e.2.same w = true) :
    sameEntries entries others = true := by
  induction entries with
  | nil => simp [sameEntries]
  | cons e entries ih =>
    obtain ⟨⟨w, hw, hsame⟩, hentries⟩ := List.forall_mem_cons.mp h
    simp [sameEntries, hw, hsame, ih hentries]

/-- A value whose mappings have distinct keys is the `same` as itself. -/
theorem IsDistinct.same_self {v : Value} (h : v.IsDistinct) : v.same v = true := by
  induction h with
  | @scalar s => simpa [same] using s.agrees_self
  | list _ ih => simpa [same] using sameAll_self ih
  | tuple _ ih => simpa [same] using sameAll_self ih
  -- A key has to find its own entry again, which is where distinct keys are needed.
  | @mapping entries hn _ ih =>
    have hentries : sameEntries entries entries = true :=
      sameEntries_of_forall fun e he => ⟨e.2, Entries.get?_of_disagree hn he, ih e he⟩
    simpa [same] using hentries
  | @set members =>
    simp only [same, beq_self_eq_true, Bool.true_and, List.all_eq_true, List.any_eq_true]
    exact fun s hs => ⟨s, hs, s.agrees_self⟩
  | function _ ih => simpa [same] using sameAll_self ih
  | call _ ih => simpa [same] using sameAll_self ih
  | knot _ ih => simpa [same] using sameAll_self ih
  | link => simp [same]

/-- A JSON value `IsDistinct`, since its keys are distinct texts, and these do not agree. -/
theorem IsJson.isDistinct {v : Value} (h : v.IsJson) : v.IsDistinct := by
  induction h with
  | list _ ih => exact .list ih
  | @record fields hn _ ih =>
    refine .mapping ?_ fun e he => ?_
    · rw [textEntries, List.pairwise_map]
      rw [Entries.keys, List.nodup_iff_pairwise_ne, List.pairwise_map] at hn
      exact hn.imp fun {a b} hne => (textEntries.str_beq a.1 b.1).trans (beq_false_of_ne hne)
    · obtain ⟨f, hf, rfl⟩ := List.mem_map.mp he
      exact ih f hf
  | _ => exact .scalar

end Value

/-! ## Schemas -/

/-- The settings hold values with distinct keys only, whose sameness is decided entry by entry. -/
structure Options.AreDistinct (o : Options) : Prop where
  /-- Whether the attribute may be null. -/
  nullable : o.nullable.IsDistinct
  /-- The default, if there is one. -/
  default : ∀ d ∈ o.default, d.IsDistinct

/-- The query holds values with distinct keys only, in each of its three parts. -/
structure Query.IsDistinct (q : Query) : Prop where
  /-- The filter clauses. -/
  condition : q.condition.IsDistinct
  /-- How many members at most. -/
  limit : q.limit.IsDistinct
  /-- The order of the members. -/
  order : q.order.IsDistinct

/-- Settings whose values have distinct keys are the same as themselves under `Options.same`. -/
theorem Options.AreDistinct.same_self {o : Options} (h : o.AreDistinct) : o.same o = true := by
  have hdefault : sameDefault o.default o.default = true := by
    cases hd : o.default with
    | none => rfl
    | some d => exact (h.default d hd).same_self
  rw [Options.same, h.nullable.same_self, hdefault, Bool.and_self]

/-- A query whose values have distinct keys is the same as itself under `Query.same`. -/
theorem Query.IsDistinct.same_self {q : Query} (h : q.IsDistinct) : q.same q = true := by
  rw [Query.same, h.condition.same_self, h.limit.same_self, h.order.same_self, Bool.and_self,
    Bool.and_self]

/-- An attribute of which a module keeps everything: on all levels the optional keys are those of
attributes that are no relations. Keys are distinct, in the trees and in the values that they
hold. -/
inductive Attribute.IsKept : Attribute → Prop
  /-- A primitive attribute. -/
  | primitive {kind : Value} {o : Options} (hk : kind.IsDistinct) (ho : o.AreDistinct) :
      IsKept (.primitive kind o)
  /-- A set of a primitive kind. -/
  | set {kind : Value} {o o' : Options} (hitems : IsKept (.primitive kind o))
      (ho : o'.AreDistinct) : IsKept (.set (.primitive kind o) o')
  /-- A record. -/
  | record {properties : List (String × Attribute)} {optional : List String}
      (hn : (Entries.keys properties).Nodup) (h : ∀ p ∈ properties, IsKept p.2)
      (hown : optional ⊆ ownOptional optional properties) : IsKept (.record properties optional)
  /-- A relation. -/
  | relation {cardinality target : Value} {query : Query} (hc : cardinality.IsDistinct)
      (ht : target.IsDistinct) (hq : query.IsDistinct) :
      IsKept (.relation cardinality target query)

/-- A collection of which a module keeps everything: of its tree, and of its rules. -/
structure Collection.IsKept (c : Collection) : Prop where
  /-- Its tree. -/
  schema : c.schema.toRecord.IsKept
  /-- Its rules. -/
  rules : c.rules.IsDistinct

/-- A schema of which a module keeps everything but the version, under distinct names. -/
structure Schema.IsKept (s : Schema) : Prop where
  /-- The names are distinct. -/
  nodup : (Entries.keys s.collections).Nodup
  /-- The collections are kept. -/
  collections : ∀ p ∈ s.collections, p.2.IsKept

/-- Attributes are `sameProperties` as those of a record in which each of their keys has the same
one. -/
theorem Attribute.sameProperties_of_forall {properties others : List (String × Attribute)}
    (h : ∀ p ∈ properties, ∃ b, Entries.get? p.1 others = some b ∧ p.2.same b = true) :
    sameProperties properties others = true := by
  induction properties with
  | nil => simp [sameProperties]
  | cons p properties ih =>
    obtain ⟨⟨b, hb, hsame⟩, hproperties⟩ := List.forall_mem_cons.mp h
    simp [sameProperties, hb, hsame, ih hproperties]

/-- Optional keys that are all kept are the same keys, in whatever order. -/
theorem sameKeys_ownOptional {optional : List String} {properties : List (String × Attribute)}
    (hown : optional ⊆ ownOptional optional properties) :
    sameKeys (ownOptional optional properties) optional = true := by
  have hsub : ownOptional optional properties ⊆ optional := fun k hk => (mem_ownOptional.mp hk).1
  simp only [sameKeys, Bool.and_eq_true, List.all_eq_true, List.contains_iff_mem]
  exact ⟨hsub, hown⟩

/-- An attribute of which a module keeps everything is the same as what it keeps, `cutDown`. -/
theorem Attribute.IsKept.same_cutDown {a : Attribute} (h : a.IsKept) : a.cutDown.same a = true := by
  induction h with
  | primitive hk ho => simp [cutDown, same, hk.same_self, ho.same_self]
  | set _ ho ih => simpa [cutDown, same, ho.same_self] using ih
  | @record properties optional hn _ hown ih =>
    have hproperties : sameProperties (cutDownProperties properties) properties = true := by
      refine sameProperties_of_forall fun p hp => ?_
      rw [cutDownProperties_eq_map] at hp
      obtain ⟨q, hq, rfl⟩ := List.mem_map.mp hp
      exact ⟨q.2, Entries.get?_of_mem hn hq, ih q hq⟩
    -- No attribute is cut away, so that both records have as many.
    have hlength : (cutDownProperties properties).length = properties.length := by
      rw [cutDownProperties_eq_map, List.length_map]
    rw [cutDown, same, hproperties, sameKeys_ownOptional hown, hlength]
    simp
  | relation hc ht hq => simp [cutDown, same, hc.same_self, ht.same_self, hq.same_self]

/-- A collection of which a module keeps everything is the same as what it keeps, `cutDown`. -/
theorem Collection.IsKept.same_cutDown {c : Collection} (h : c.IsKept) :
    c.cutDown.same c = true := by
  have hschema : c.schema.cutDown.same c.schema = true := h.schema.same_cutDown
  rw [Collection.same, Collection.cutDown, hschema, h.rules.same_self, Bool.and_self]

/-- A schema of which a module keeps everything is the same as what it keeps, `cutDown`, at any
version. -/
theorem Schema.IsKept.same_cutDown {s : Schema} (h : s.IsKept) (version : ℤ) :
    ({ s.cutDown with version } : Schema).same { s with version } = true := by
  simp only [Schema.same, Schema.cutDown, List.length_map, beq_self_eq_true, Bool.true_and,
    List.all_map, List.all_eq_true]
  intro p hp
  have hget : Entries.get? p.1 s.collections = some p.2 := Entries.get?_of_mem h.nodup hp
  simpa [hget] using (h.collections p hp).same_cutDown

/-- A schema of which a module keeps everything comes back the same, but for its version, if what
its relations and its rules carry is JSON. -/
theorem Schema.IsKept.same_load {s : Schema} (h : s.IsKept) (hs : s.IsRegular Value.IsJson)
    {t t' : QuoteTable} (ht : t.Arises) {text : String}
    (hrun : (encodeModule {} (some s)).run t = .ok (text, t')) :
    ∃ s', Source.load text.toList = .ok s' ∧ s'.same { s with version := 0 } = true := by
  have hcarried : s.IsRegular Value.IsCarried := hs.mono fun _ => Value.IsJson.isCarried
  have hresult : (encodeModule {} (some s)).result = .ok text :=
    hs.isSteady_encodeModule.result_eq ht.isSound hrun
  have hload : Source.load text.toList = .ok s.reloaded :=
    hcarried.load_result Source.isSound_default hresult
  rw [Schema.reloaded_of_isJson hs] at hload
  exact ⟨_, hload, h.same_cutDown 0⟩

end SchemaForge
