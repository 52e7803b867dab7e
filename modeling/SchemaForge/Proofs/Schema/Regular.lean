import SchemaForge.Proofs.Source.Relation

/-!
# Regular schemas

A schema is regular when it meets the invariants of section 3 of the specification: its keys are
distinct on every level, its sets hold primitive attributes, and its relations have one of the two
cardinalities and a text as target. What its relations and rules may carry is left open.
`Schema.ofValue` gives such schemas, and the loader too.

A module does not keep everything of a schema: neither the version, nor the optional keys that have
no attribute or a relation as theirs. What it keeps of a schema is `reloaded`.
-/

namespace SchemaForge

/-- Whether an attribute is a relation, which is never written as optional. -/
def Attribute.isRelation : Attribute → Bool
  | .relation .. => true
  | _ => false

/-- Distinct keys, primitive items, known cardinalities and targets that are texts, on all levels of
an attribute. `P` says what a condition or an order may be. -/
inductive Attribute.IsRegular (P : Value → Prop) : Attribute → Prop
  /-- A primitive attribute. -/
  | primitive {kind : Value} {o : Options} : IsRegular P (.primitive kind o)
  /-- A set of a primitive kind. -/
  | set {kind : Value} {o o' : Options} : IsRegular P (.set (.primitive kind o) o')
  /-- A record with distinct keys. -/
  | record {properties : List (String × Attribute)} {optional : List String}
      (hn : (Entries.keys properties).Nodup) (h : ∀ p ∈ properties, IsRegular P p.2) :
      IsRegular P (.record properties optional)
  /-- A relation to one or many members of a named collection. -/
  | relation {cardinality : Value} {target : String} {query : Query}
      (hc : cardinality ∈ cardinalities) (hw : P query.condition) (ho : P query.order) :
      IsRegular P (.relation cardinality (.str target) query)
  /-- What is no attribute, and cannot be written. -/
  | foreign {v : Value} : IsRegular P (.foreign v)

/-- A collection whose tree has distinct keys and regular attributes, and whose rules are all
`P`. -/
structure Collection.IsRegular (P : Value → Prop) (c : Collection) : Prop where
  /-- The keys of the attributes are distinct. -/
  nodup : (Entries.keys c.schema.properties).Nodup
  /-- The attributes are regular. -/
  properties : ∀ p ∈ c.schema.properties, p.2.IsRegular P
  /-- The rules may be carried. -/
  rules : P c.rules

/-- A schema with distinct names of regular collections. Both readers of schemas give such ones. -/
structure Schema.IsRegular (P : Value → Prop) (s : Schema) : Prop where
  /-- The names are distinct. -/
  nodup : (Entries.keys s.collections).Nodup
  /-- The collections are regular. -/
  collections : ∀ p ∈ s.collections, p.2.IsRegular P

section Regular

variable {P Q : Value → Prop} {a : Attribute} {c : Collection} {s : Schema}

/-- A regular attribute stays so when its conditions and orders may be more than `P`. -/
theorem Attribute.IsRegular.mono (h : a.IsRegular P) (hPQ : ∀ v, P v → Q v) : a.IsRegular Q := by
  induction h with
  | primitive => exact .primitive
  | set => exact .set
  | record hn _ ih => exact .record hn ih
  | relation hc hw ho => exact .relation hc (hPQ _ hw) (hPQ _ ho)
  | foreign => exact .foreign

/-- A collection that is regular stays so when more values may be carried. -/
theorem Collection.IsRegular.mono (h : c.IsRegular P) (hPQ : ∀ v, P v → Q v) : c.IsRegular Q :=
  ⟨h.nodup, fun p hp => (h.properties p hp).mono hPQ, hPQ _ h.rules⟩

/-- A schema that is regular stays so when more values may be carried. -/
theorem Schema.IsRegular.mono (h : s.IsRegular P) (hPQ : ∀ v, P v → Q v) : s.IsRegular Q :=
  ⟨h.nodup, fun p hp => (h.collections p hp).mono hPQ⟩

end Regular

/-! ## What a module keeps -/

/-- The optional keys that a module keeps, in order: those of attributes of the tree that are no
relations, since only these are wrapped. -/
def ownOptional (optional : List String) (properties : List (String × Attribute)) : List String :=
  (properties.filter fun p => optional.contains p.1 && !p.2.isRelation).map (·.1)

/-- The function `ownOptional` holds the optional keys of attributes that are no relations. -/
theorem mem_ownOptional {optional : List String} {properties : List (String × Attribute)}
    {key : String} : key ∈ ownOptional optional properties ↔
      key ∈ optional ∧ ∃ a, (key, a) ∈ properties ∧ a.isRelation = false := by
  unfold ownOptional
  simp only [List.mem_map, List.mem_filter, Bool.and_eq_true, List.contains_iff_mem,
    Bool.not_eq_true']
  constructor
  · rintro ⟨⟨k, a⟩, ⟨hmem, hkey, ha⟩, rfl⟩
    exact ⟨hkey, a, hmem, ha⟩
  · rintro ⟨hkey, a, hmem, ha⟩
    exact ⟨(key, a), ⟨hmem, hkey, ha⟩, rfl⟩

/-- The first attribute of a tree has its key in `ownOptional` if it is optional and no relation. -/
theorem ownOptional_cons (optional : List String) (key : String) (a : Attribute)
    (rest : List (String × Attribute)) : ownOptional optional ((key, a) :: rest) =
      if optional.contains key && !a.isRelation then key :: ownOptional optional rest
      else ownOptional optional rest := by
  unfold ownOptional
  rw [List.filter_cons]
  cases optional.contains key && !a.isRelation <;> rfl

mutual

/-- What a module keeps of an attribute: all of it but for the optional keys that `ownOptional`
leaves out, and what JSON does not tell apart in queries. -/
def Attribute.reloaded : Attribute → Attribute
  | .primitive kind o => .primitive kind o
  | .set items o => .set items o
  | .record properties optional =>
    .record (reloadedProperties properties) (ownOptional optional properties)
  | .relation cardinality target q => .relation cardinality target (q.reloaded cardinality)
  | .foreign v => .foreign v

/-- What a module keeps of several attributes under their keys, one by one as `Attribute.reloaded`
says. -/
def reloadedProperties : List (String × Attribute) → List (String × Attribute)
  | [] => []
  | (key, a) :: rest => (key, a.reloaded) :: reloadedProperties rest

end

/-- What a module keeps of a tree: its attributes as they are kept, and the optional keys of
`ownOptional`. -/
def AttributeTree.reloaded (t : AttributeTree) : AttributeTree :=
  ⟨reloadedProperties t.properties, ownOptional t.optional t.properties⟩

/-- What a module keeps of a collection: of its tree what can be loaded, and its rules as JSON has
them. -/
def Collection.reloaded (c : Collection) : Collection := ⟨c.schema.reloaded, c.rules.reloaded⟩

/-- What a module keeps of a schema. The version is not written, so it becomes zero. -/
def Schema.reloaded (s : Schema) : Schema :=
  ⟨0, s.collections.map fun p => (p.1, p.2.reloaded)⟩

/-- A module keeps all keys of a tree, in their order: `reloadedProperties` changes attributes
only. -/
theorem keys_reloadedProperties (properties : List (String × Attribute)) :
    Entries.keys (reloadedProperties properties) = Entries.keys properties := by
  induction properties with
  | nil => rfl
  | cons p properties ih =>
    rw [reloadedProperties, Entries.keys, List.map_cons]
    exact congrArg (p.1 :: ·) ih

/-- The attributes of a record are kept one by one, so that `reloadedProperties` is a map over
them. -/
theorem reloadedProperties_eq_map (properties : List (String × Attribute)) :
    reloadedProperties properties = properties.map fun p => (p.1, p.2.reloaded) := by
  induction properties with
  | nil => rfl
  | cons p properties ih => rw [reloadedProperties, ih, List.map_cons]

/-- What is kept of a regular attribute is regular, so that a module may be written and loaded
again. -/
theorem Attribute.IsRegular.reloaded {P : Value → Prop} {a : Attribute} (h : a.IsRegular P) :
    a.reloaded.IsRegular fun _ => True := by
  induction h with
  | primitive => exact .primitive
  | set => exact .set
  | @record properties optional hn _ ih =>
    refine .record ((keys_reloadedProperties properties).symm ▸ hn) fun p hp => ?_
    rw [reloadedProperties_eq_map] at hp
    obtain ⟨q, hq, rfl⟩ := List.mem_map.mp hp
    exact ih q hq
  | relation hc hw ho => exact .relation hc trivial trivial
  | foreign => exact .foreign

/-- Relations are kept as relations, and nothing else becomes one, so that `ownOptional` keeps the
same keys the next time. -/
theorem Attribute.isRelation_reloaded (a : Attribute) : a.reloaded.isRelation = a.isRelation := by
  cases a <;> rfl

end SchemaForge
