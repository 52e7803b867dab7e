import SchemaForge.Proofs.Outcome
import SchemaForge.Proofs.Value.Entries
import SchemaForge.Proofs.Value.Knot
import SchemaForge.Schema.Reading

/-!
# What reading does

One law for each form of a part. A mapping is read by its fields, given what its attributes and its
items are read as (`attributeOfPart_eq_attributeOfFields`); a knot and a link are read by their
nodes; anything else is no attribute. What is so of every reading is shown by `reading_induct`,
which asks for the forms that can have a result.
-/

namespace SchemaForge

variable {v : Value} {a : Attribute} {es entries : List (Scalar × Value)} {nodes : List Value}
  {turns : ℕ} {key : Option String}

/-- A part that has to be a mapping (`entriesOf`) is read exactly if it has `entries?`, and these
are what is read. -/
theorem entriesOf_eq_ok {part : SchemaPart} {es : List (Scalar × Value)} :
    entriesOf part v = .ok es ↔ v.entries? = some es := by
  unfold entriesOf
  cases v.entries? with
  | none =>
    constructor
    · intro h
      cases h
    · intro h
      cases h
  | some fs => rw [Except.ok.injEq, Option.some.injEq]

/-- What `relationOfEntries` reads: the target is the name in the query, the cardinality is one of
`cardinalities`, `many` where there is none, and the settings and the query are read of their own
fields. -/
theorem relationOfEntries_eq_ok (h : relationOfEntries es key = .ok a) :
    ∃ query c, (fieldOf "query" es).entries? = some query ∧
      (Value.field? "cardinality" es).getD (.str "many") = c ∧
        cardinalities.any c.same = true ∧
          a = .relation c (.str (fieldOf "collectionName" query).text)
            { condition := fieldOf "where" query
              limit := fieldOf "limit" query
              order := fieldOf "order" query } := by
  obtain ⟨query, hquery, h⟩ := Outcome.bind_eq_ok.mp h
  dsimp only at h
  split at h
  · cases h
  · obtain ⟨c, hc, h⟩ := Outcome.bind_eq_ok.mp h
    cases h
    -- The cardinality is looked up and tested, and what passes is what was found.
    unfold cardinalityOf at hc
    dsimp only at hc
    split at hc
    · cases hc
    split at hc
    · rename_i hone
      cases hc
      exact ⟨query, _, entriesOf_eq_ok.mp hquery, rfl, hone, rfl⟩
    · cases hc

/-! ## Mappings -/

/-- The attribute that a mapping of some fields describes, given what is read of its attributes and
of its items. It is `attributeOfPart` without the recursion, so that one equation stands for
both. -/
def attributeOfFields (fields : List (Scalar × Value)) (key : Option String)
    (properties : Outcome Malformed (List (String × Attribute)))
    (items : Outcome Malformed Attribute) : Outcome Malformed Attribute := do
  let type := fieldOf "type" fields
  if !type.isTruthy then refuse (.noType key)
  if type.same (.str "record") then
    let properties ← properties
    return .record properties (← optionalKeys (fieldOf "optional" fields))
  else if type.same (.str "set") then
    let items ← items
    requirePrimitive key items
    return .set items (← Options.ofValue (fieldOf "options" fields))
  else if type.same (.str "query") then
    relationOfEntries fields key
  else
    return .primitive (.str type.text) (← Options.ofValue (fieldOf "options" fields))

/-- The function `attributeOfPart` reads a mapping by its fields as values of their own, while its
attributes and its items are read among the nodes, where their links lead somewhere. -/
theorem attributeOfPart_eq_attributeOfFields :
    attributeOfPart nodes turns key (.mapping entries)
      = attributeOfFields (Value.entriesWithin nodes entries) key
        ((Value.field? "properties" entries).elim (.ok []) (propertiesOfPart nodes turns))
        ((Value.field? "items" entries).elim (refuse (.notMapping (.attribute key)))
          (attributeOfPart nodes turns key)) := by
  rw [attributeOfPart]
  unfold attributeOfFields
  dsimp only
  split
  · rfl
  split
  -- A record has its attributes read within the nodes, and a set its items.
  · split
    · rename_i v hv
      rw [hv]
      rfl
    · rename_i hv
      rw [hv]
      rfl
  split
  · split
    · rename_i v hv
      rw [hv]
      rfl
    · rename_i hv
      rw [hv]
      rfl
  · rfl

/-- Entries whose values have no links stay as they are among any nodes. -/
theorem entriesWithin_of_within {es : List (Scalar × Value)}
    (h : ∀ e ∈ es, e.2.within [] = e.2) : es = Value.entriesWithin [] es :=
  (Value.map_eq_self fun e he => by rw [h e he]).symm

/-- A mapping of values without links is read by its fields, and there are no nodes that its parts
could be read among. -/
theorem ofValue_eq_attributeOfFields (hes : ∀ e ∈ es, e.2.within [] = e.2) :
    Attribute.ofValue key (.mapping es) = attributeOfFields es key
      ((Value.field? "properties" es).elim (.ok []) (propertiesOfPart [] 0))
      ((Value.field? "items" es).elim (refuse (.notMapping (.attribute key)))
        (Attribute.ofValue key)) := by
  rw [Attribute.ofValue, attributeOfPart_eq_attributeOfFields, ← entriesWithin_of_within hes]
  rfl

/-- The cases in which a mapping is read as an attribute: a record, a set, a relation, or an
attribute of a primitive kind. Each comes with its type, and with what is read of the parts that
belong to it. -/
theorem attributeOfPart_mapping (h : attributeOfPart nodes turns key (.mapping entries) = .ok a)
    {fields : List (Scalar × Value)} (hf : fields = Value.entriesWithin nodes entries) :
    ((fieldOf "type" fields).same (.str "record") = true ∧
      ∃ ps optional, ((Value.field? "properties" entries).elim (.ok [])
          (propertiesOfPart nodes turns)) = .ok ps ∧
        optionalKeys (fieldOf "optional" fields) = .ok optional ∧ a = .record ps optional) ∨
    ((fieldOf "type" fields).same (.str "set") = true ∧
      ∃ v kind o o', Value.field? "items" entries = some v ∧
        attributeOfPart nodes turns key v = .ok (.primitive kind o) ∧
          Options.ofValue (fieldOf "options" fields) = .ok o' ∧ a = .set (.primitive kind o) o') ∨
    ((fieldOf "type" fields).same (.str "query") = true ∧ relationOfEntries fields key = .ok a) ∨
    ((fieldOf "type" fields).same (.str "record") = false ∧
      (fieldOf "type" fields).same (.str "set") = false ∧
      (fieldOf "type" fields).same (.str "query") = false ∧
        ∃ o, Options.ofValue (fieldOf "options" fields) = .ok o ∧
          a = .primitive (.str (fieldOf "type" fields).text) o) := by
  subst hf
  rw [attributeOfPart_eq_attributeOfFields] at h
  unfold attributeOfFields at h
  dsimp only at h
  -- The tests come in the order of the cases, after the one for a missing type.
  split at h
  · cases h
  split at h
  · rename_i hrecord
    obtain ⟨ps, hps, h⟩ := Outcome.bind_eq_ok.mp h
    obtain ⟨optional, hoptional, h⟩ := Outcome.bind_eq_ok.mp h
    cases h
    exact .inl ⟨hrecord, ps, optional, hps, Outcome.lift_eq_ok.mp hoptional, rfl⟩
  rename_i hrecord
  split at h
  · rename_i hset
    obtain ⟨items, hitems, h⟩ := Outcome.bind_eq_ok.mp h
    obtain ⟨_, hprimitive, h⟩ := Outcome.bind_eq_ok.mp h
    obtain ⟨o', ho', h⟩ := Outcome.bind_eq_ok.mp h
    cases h
    cases hv : Value.field? "items" entries with
    | none =>
      rw [hv] at hitems
      cases hitems
    | some v =>
      rw [hv] at hitems
      -- Of the items only those of a primitive kind are let through.
      cases items with
      | primitive kind o => exact .inr (.inl ⟨hset, v, kind, o, o', rfl, hitems, ho', rfl⟩)
      | _ => cases hprimitive
  rename_i hset
  split at h
  · rename_i hquery
    exact .inr (.inr (.inl ⟨hquery, h⟩))
  · rename_i hquery
    obtain ⟨o, ho, h⟩ := Outcome.bind_eq_ok.mp h
    cases h
    exact .inr (.inr (.inr ⟨Bool.eq_false_iff.mpr hrecord, Bool.eq_false_iff.mpr hset,
      Bool.eq_false_iff.mpr hquery, o, ho, rfl⟩))

/-- What `attributeOfPart` reads as an attribute has a type that counts as true. -/
theorem isTruthy_type (h : attributeOfPart nodes turns key (.mapping entries) = .ok a) :
    (fieldOf "type" (Value.entriesWithin nodes entries)).isTruthy = true := by
  rw [attributeOfPart_eq_attributeOfFields] at h
  unfold attributeOfFields at h
  dsimp only at h
  split at h
  · cases h
  · rename_i ht
    simpa using ht

/-! ## Knots and links -/

section Nodes

variable {nodes' : List Value} {n : ℕ} {keyed : Bool} {p : Value}

/-- A knot is read by its node among its own nodes, with as many links to follow as these have
(`turnsOf`). -/
theorem attributeOfPart_knot (hn : nodes'[n]? = some p) :
    attributeOfPart nodes turns key (.knot n nodes')
      = attributeOfPart nodes' (turnsOf nodes') key p := by
  rw [attributeOfPart]
  split
  · rename_i hn'
    cases hn.symm.trans hn'
    rfl
  · rename_i hn'
    cases hn.symm.trans hn'

/-- A link is read by its node among the same nodes, with a turn less. -/
theorem attributeOfPart_link (hn : nodes[n]? = some p) :
    attributeOfPart nodes (turns + 1) key (.link n keyed)
      = attributeOfPart nodes turns key p := by
  rw [attributeOfPart]
  split
  · rename_i hn'
    cases hn.symm.trans hn'
    rfl
  · rename_i hn'
    cases hn.symm.trans hn'

/-- The attributes in a knot are read by its node among its own nodes. -/
theorem propertiesOfPart_knot (hn : nodes'[n]? = some p) :
    propertiesOfPart nodes turns (.knot n nodes')
      = propertiesOfPart nodes' (turnsOf nodes') p := by
  rw [propertiesOfPart]
  split
  · rename_i hn'
    cases hn.symm.trans hn'
    rfl
  · rename_i hn'
    cases hn.symm.trans hn'

/-- The attributes behind a link are read by its node, with a turn less. -/
theorem propertiesOfPart_link (hn : nodes[n]? = some p) :
    propertiesOfPart nodes (turns + 1) (.link n keyed) = propertiesOfPart nodes turns p := by
  rw [propertiesOfPart]
  split
  · rename_i hn'
    cases hn.symm.trans hn'
    rfl
  · rename_i hn'
    cases hn.symm.trans hn'

/-- A knot whose node is not there is refused as if it were no mapping. -/
theorem attributeOfPart_knot_none (hn : nodes'[n]? = none) :
    attributeOfPart nodes turns key (.knot n nodes') = refuse (.notMapping (.attribute key)) := by
  rw [attributeOfPart]
  split
  · rename_i hn'
    cases hn.symm.trans hn'
  · rfl

/-- A link whose node is not there is refused as if it were no mapping. -/
theorem attributeOfPart_link_none (hn : nodes[n]? = none) :
    attributeOfPart nodes (turns + 1) key (.link n keyed)
      = refuse (.notMapping (.attribute key)) := by
  rw [attributeOfPart]
  split
  · rename_i hn'
    cases hn.symm.trans hn'
  · rfl

/-- A knot without its node holds no attributes, for it unrolls to nothing. -/
theorem propertiesOfPart_knot_none (hn : nodes'[n]? = none) :
    propertiesOfPart nodes turns (.knot n nodes') = .ok [] := by
  rw [propertiesOfPart]
  split
  · rename_i hn'
    cases hn.symm.trans hn'
  · rfl

/-- A link without its node leads to no attributes. -/
theorem propertiesOfPart_link_none (hn : nodes[n]? = none) :
    propertiesOfPart nodes (turns + 1) (.link n keyed) = .ok [] := by
  rw [propertiesOfPart]
  split
  · rename_i hn'
    cases hn.symm.trans hn'
  · rfl

end Nodes

/-! ## Other parts -/

/-- A part that is no mapping, no knot and no link: it is read by its kind alone. -/
def Value.IsOther (p : Value) : Prop :=
  (∀ entries, p ≠ .mapping entries) ∧ (∀ n nodes, p ≠ .knot n nodes) ∧
    ∀ n keyed, p ≠ .link n keyed

variable {p : Value}

/-- A scalar is no mapping, no knot and no link, so that it `IsOther`. -/
theorem Value.isOther_scalar {s : Scalar} : (Value.scalar s).IsOther := ⟨nofun, nofun, nofun⟩

/-- A tuple is not a mapping, a knot or a link either, so it describes no attribute. -/
theorem Value.isOther_tuple {items : List Value} : (Value.tuple items).IsOther :=
  ⟨nofun, nofun, nofun⟩

/-- Any other part is refused as an attribute, since an attribute has to be a mapping. -/
theorem attributeOfPart_isOther (hp : p.IsOther) :
    attributeOfPart nodes turns key p = refuse (.notMapping (.attribute key)) := by
  rw [attributeOfPart]
  · exact hp.1
  · exact hp.2.1
  · exact hp.2.2

/-- Any other part holds no attributes if it counts as false, and is refused otherwise. -/
theorem propertiesOfPart_isOther (hp : p.IsOther) :
    propertiesOfPart nodes turns p
      = if p.isTruthy then refuse (.notMapping .properties) else .ok [] := by
  rw [propertiesOfPart]
  · exact hp.1
  · exact hp.2.1
  · exact hp.2.2

/-- The absent value is read as no attributes. -/
theorem propertiesOfPart_null : propertiesOfPart [] 0 .null = .ok [] :=
  propertiesOfPart_isOther Value.isOther_scalar

/-! ## Entries one by one -/

/-- Under the key `key`, the value `v` is read as the attribute `a`. This is the relation by which
mappings of attributes and attribute trees are compared (`Entries.Related`). -/
def IsReadAs (key : String) (v : Value) (a : Attribute) : Prop :=
  Attribute.ofValue (some key) v = .ok a

/-- A value under a key `IsReadAs` one attribute at most. -/
theorem isReadAs_unique (key : String) (v : Value) (a b : Attribute) (ha : IsReadAs key v a)
    (hb : IsReadAs key v b) : a = b := by
  cases ha.symm.trans hb
  rfl

section Entries

variable {α : Type} {f : Scalar → Value → Outcome Malformed α}
  {fAll : List (Scalar × Value) → List (String × α) → Outcome Malformed (List (String × α))}

/-- A reader of entries that puts one reading after the other has a result exactly if each entry has
a reading, and then it puts all of them under the texts of their keys. This is the one induction on
entries. -/
theorem readAll_eq_ok_iff (hnil : ∀ done, fAll [] done = .ok done)
    (hcons : ∀ k v rest done, fAll ((k, v) :: rest) done
      = f k v >>= fun a => fAll rest (Entries.put k.text a done))
    {done result : List (String × α)} : fAll es done = .ok result ↔
      ∃ ds : List ((Scalar × Value) × α), es = ds.map (·.1) ∧
        (∀ d ∈ ds, f d.1.1 d.1.2 = .ok d.2) ∧
          result = Entries.putAll done (ds.map fun d => (d.1.1.text, d.2)) := by
  constructor
  · intro h
    -- What is read so far is carried along, and it is general in the induction for that reason.
    induction es generalizing done with
    | nil =>
      rw [hnil] at h
      cases h
      exact ⟨[], rfl, fun _ hd => absurd hd List.not_mem_nil, rfl⟩
    | cons e es ih =>
      obtain ⟨k, v⟩ := e
      rw [hcons] at h
      obtain ⟨a, ha, h⟩ := Outcome.bind_eq_ok.mp h
      obtain ⟨ds, rfl, hd, rfl⟩ := ih h
      exact ⟨((k, v), a) :: ds, rfl, List.forall_mem_cons.mpr ⟨ha, hd⟩, rfl⟩
  · rintro ⟨ds, rfl, hd, rfl⟩
    -- Conversely, the pairs say what each value is read as, and the fold takes them in order.
    induction ds generalizing done with
    | nil => exact hnil done
    | cons d ds ih =>
      obtain ⟨⟨k, v⟩, a⟩ := d
      obtain ⟨ha, hd⟩ := List.forall_mem_cons.mp hd
      rw [List.map_cons, hcons]
      exact Outcome.bind_eq_ok.mpr ⟨a, ha, ih hd⟩

/-- What is put under texts is one of the readings: a later one may replace an earlier one, but
nothing else appears. -/
theorem exists_of_mem_ofPairs {ds : List ((Scalar × Value) × α)} {p : String × α}
    (h : p ∈ Entries.ofPairs (ds.map fun d => (d.1.1.text, d.2))) : ∃ d ∈ ds, p.2 = d.2 := by
  rcases Entries.mem_putAll h with h | h
  · cases h
  · obtain ⟨d, hd, rfl⟩ := List.mem_map.mp h
    exact ⟨d, hd, rfl⟩

/-- Entries under texts are related to others exactly if both come from one list of pairs of a value
and what is read of it. -/
theorem Entries.related_iff_exists_pairs {R : String → Value → α → Prop}
    {fields : List (String × Value)} {others : List (String × α)} : Related R fields others ↔
      ∃ ds : List ((Scalar × Value) × α), textEntries fields = ds.map (·.1) ∧
        (∀ d ∈ ds, R d.1.1.text d.1.2 d.2) ∧ others = ds.map fun d => (d.1.1.text, d.2) := by
  constructor
  · intro h
    -- The pairs are collected along the relation.
    induction h with
    | nil => exact ⟨[], rfl, fun _ hd => absurd hd List.not_mem_nil, rfl⟩
    | @cons x y xs ys hxy _ ih =>
      obtain ⟨ds, hds, hd, rfl⟩ := ih
      obtain ⟨key, a⟩ := x
      obtain ⟨_, b⟩ := y
      obtain ⟨rfl, hR⟩ := hxy
      exact ⟨((.str key, a), b) :: ds, congrArg ((Scalar.str key, a) :: ·) hds,
        List.forall_mem_cons.mpr ⟨hR, hd⟩, rfl⟩
  · rintro ⟨ds, hfields, hd, rfl⟩
    induction ds generalizing fields with
    | nil =>
      rw [textEntries.eq_nil hfields]
      exact .nil
    | cons d ds ih =>
      obtain ⟨⟨k, a⟩, b⟩ := d
      obtain ⟨⟨key, a'⟩, rest, rfl, hfirst, hrest⟩ := List.map_eq_cons_iff.mp hfields
      cases hfirst
      obtain ⟨hR, hd⟩ := List.forall_mem_cons.mp hd
      exact .cons ⟨rfl, hR⟩ (ih hrest hd)

/-- Under distinct texts nothing is replaced, so that what is put is related to the values that it
is read of, one by one. -/
theorem exists_pairs_iff_related {R : String → Value → α → Prop} {fields : List (String × Value)}
    {result : List (String × α)} (hn : (Entries.keys fields).Nodup) :
    (∃ ds : List ((Scalar × Value) × α), textEntries fields = ds.map (·.1) ∧
      (∀ d ∈ ds, R d.1.1.text d.1.2 d.2) ∧
        result = Entries.ofPairs (ds.map fun d => (d.1.1.text, d.2))) ↔
      Entries.Related R fields result := by
  -- The texts are those of the pairs, so these are put in as they are.
  have hpairs : ∀ ds : List ((Scalar × Value) × α), textEntries fields = ds.map (·.1) →
      (∀ d ∈ ds, R d.1.1.text d.1.2 d.2) →
        Entries.ofPairs (ds.map fun d => (d.1.1.text, d.2))
          = ds.map fun d => (d.1.1.text, d.2) := by
    intro ds hfields hd
    refine Entries.ofPairs_of_nodup ?_
    rwa [(Entries.related_iff_exists_pairs.mpr ⟨ds, hfields, hd, rfl⟩).keys_eq]
  rw [Entries.related_iff_exists_pairs]
  constructor
  · rintro ⟨ds, hfields, hd, rfl⟩
    exact ⟨ds, hfields, hd, hpairs ds hfields hd⟩
  · rintro ⟨ds, hfields, hd, rfl⟩
    exact ⟨ds, hfields, hd, (hpairs ds hfields hd).symm⟩

end Entries

/-- The function `propertiesOfEntries` has a result exactly if every value is read as an attribute,
and it puts these under the texts of their keys. -/
theorem propertiesOfEntries_eq_ok_iff {done ps : List (String × Attribute)} :
    propertiesOfEntries nodes turns es done = .ok ps ↔
      ∃ ds : List ((Scalar × Value) × Attribute), es = ds.map (·.1) ∧
        (∀ d ∈ ds, attributeOfPart nodes turns (some d.1.1.text) d.1.2 = .ok d.2) ∧
          ps = Entries.putAll done (ds.map fun d => (d.1.1.text, d.2)) :=
  readAll_eq_ok_iff (f := fun k v => attributeOfPart nodes turns (some k.text) v)
    (fun _ => by rw [propertiesOfEntries]) (fun _ _ _ _ => by rw [propertiesOfEntries])

/-- The function `collectionsOfEntries` has a result exactly if every value is read as a collection,
and it puts these under the texts of their keys. -/
theorem collectionsOfEntries_eq_ok_iff {done cs : List (String × Collection)} :
    collectionsOfEntries es done = .ok cs ↔
      ∃ ds : List ((Scalar × Value) × Collection), es = ds.map (·.1) ∧
        (∀ d ∈ ds, Collection.ofValue d.1.2 = .ok d.2) ∧
          cs = Entries.putAll done (ds.map fun d => (d.1.1.text, d.2)) :=
  readAll_eq_ok_iff (f := fun _ v => Collection.ofValue v) (fun _ => rfl) (fun _ _ _ _ => rfl)

/-- Under distinct texts, the attributes in a mapping are `Related` to the values under these texts
by `IsReadAs`. -/
theorem propertiesOfPart_record_iff {fields : List (String × Value)}
    {ps : List (String × Attribute)} (hn : (Entries.keys fields).Nodup) :
    propertiesOfPart [] 0 (.record fields) = .ok ps ↔ Entries.Related IsReadAs fields ps := by
  rw [Value.record_eq, propertiesOfPart, propertiesOfEntries_eq_ok_iff]
  exact exists_pairs_iff_related (R := IsReadAs) hn

/-- Under distinct texts, the collections are `Related` to the values under these texts by
`Collection.ofValue`. -/
theorem collectionsOfEntries_texts_iff {fields : List (String × Value)}
    {cs : List (String × Collection)} (hn : (Entries.keys fields).Nodup) :
    collectionsOfEntries (textEntries fields) [] = .ok cs ↔
      Entries.Related (fun _ v c => Collection.ofValue v = .ok c) fields cs := by
  rw [collectionsOfEntries_eq_ok_iff]
  exact exists_pairs_iff_related (R := fun _ v c => Collection.ofValue v = .ok c) hn

/-! ## Collections and schemas -/

/-- What `Collection.ofValue` reads: the tree of the root, which is the field `schema`, with its
attributes and optional keys, and the rules. -/
theorem Collection.exists_of_ofValue {c : Collection} (h : Collection.ofValue v = .ok c) :
    ∃ es root, v.entries? = some es ∧ (fieldOf "schema" es).entries? = some root ∧
      propertiesOfPart [] 0 (fieldOf "properties" root) = .ok c.schema.properties ∧
        optionalKeys (fieldOf "optional" root) = .ok c.schema.optional ∧
          c.rules = fieldOf "rules" es := by
  obtain ⟨es, hes, h⟩ := Outcome.bind_eq_ok.mp h
  obtain ⟨root, hroot, h⟩ := Outcome.bind_eq_ok.mp h
  obtain ⟨tree, htree, h⟩ := Outcome.bind_eq_ok.mp h
  obtain ⟨properties, hproperties, htree⟩ := Outcome.bind_eq_ok.mp htree
  obtain ⟨optional, hoptional, htree⟩ := Outcome.bind_eq_ok.mp htree
  cases htree
  cases h
  exact ⟨es, root, entriesOf_eq_ok.mp hes, entriesOf_eq_ok.mp hroot, hproperties,
    Outcome.lift_eq_ok.mp hoptional, rfl⟩

/-- What `Schema.ofValue` reads of a document: the version, and the collections of the values of
their entries. -/
theorem Schema.exists_of_ofValue {s : Schema} (h : Schema.ofValue v = .ok (some s)) :
    ∃ (document : List (Scalar × Value)) (ds : List ((Scalar × Value) × Collection)),
      v.entries? = some document ∧
        ((fieldOf "collections" document).orElse (.mapping [])).entries? = some (ds.map (·.1)) ∧
          (∀ d ∈ ds, Collection.ofValue d.1.2 = .ok d.2) ∧
            s.collections = Entries.ofPairs (ds.map fun d => (d.1.1.text, d.2)) := by
  unfold Schema.ofValue at h
  split at h
  · cases h
  obtain ⟨document, hdocument, h⟩ := Outcome.bind_eq_ok.mp h
  obtain ⟨es, hes, h⟩ := Outcome.bind_eq_ok.mp h
  obtain ⟨version, -, h⟩ := Outcome.bind_eq_ok.mp h
  obtain ⟨cs, hcs, h⟩ := Outcome.bind_eq_ok.mp h
  cases h
  obtain ⟨ds, rfl, hd, rfl⟩ := collectionsOfEntries_eq_ok_iff.mp hcs
  exact ⟨document, ds, entriesOf_eq_ok.mp hdocument, entriesOf_eq_ok.mp hes, hd, rfl⟩

/-! ## Induction on reading -/

/-- Induction on reading, for what holds of every reading: of one attribute (`P`), of several (`Q`)
and of those in entries (`R`). Readings without a result count as one case; of the others there is
one for each form of a part. -/
theorem reading_induct {P : List Value → ℕ → Option String → Value → Prop}
    {Q : List Value → ℕ → Value → Prop}
    {R : List Value → ℕ → List (Scalar × Value) → List (String × Attribute) → Prop}
    (failed : ∀ nodes turns key p,
      (∀ a, attributeOfPart nodes turns key p ≠ .ok a) → P nodes turns key p)
    (mapping : ∀ nodes turns key entries,
      (∀ v, Value.field? "properties" entries = some v → Q nodes turns v) →
      (∀ v, Value.field? "items" entries = some v → P nodes turns key v) →
        P nodes turns key (.mapping entries))
    (knot : ∀ nodes turns key n nodes' p, nodes'[n]? = some p →
      P nodes' (turnsOf nodes') key p → P nodes turns key (.knot n nodes'))
    (link : ∀ nodes turns key n keyed p, nodes[n]? = some p →
      P nodes turns key p → P nodes (turns + 1) key (.link n keyed))
    (allFailed : ∀ nodes turns p,
      (∀ ps, propertiesOfPart nodes turns p ≠ .ok ps) → Q nodes turns p)
    (allMapping : ∀ nodes turns entries, R nodes turns entries [] →
      Q nodes turns (.mapping entries))
    (allKnot : ∀ nodes turns n nodes' p, nodes'[n]? = some p →
      Q nodes' (turnsOf nodes') p → Q nodes turns (.knot n nodes'))
    (allLink : ∀ nodes turns n keyed p, nodes[n]? = some p →
      Q nodes turns p → Q nodes (turns + 1) (.link n keyed))
    (noKnot : ∀ nodes turns n nodes', nodes'[n]? = none → Q nodes turns (.knot n nodes'))
    (noLink : ∀ nodes turns n keyed, nodes[n]? = none → Q nodes (turns + 1) (.link n keyed))
    (other : ∀ nodes turns p, p.IsOther → p.isTruthy = false → Q nodes turns p)
    (nil : ∀ nodes turns done, R nodes turns [] done)
    (cons : ∀ nodes turns k v rest done, P nodes turns (some k.text) v →
      (∀ a, R nodes turns rest (Entries.put k.text a done)) → R nodes turns ((k, v) :: rest) done) :
    (∀ nodes turns key p, P nodes turns key p) ∧ (∀ nodes turns p, Q nodes turns p) ∧
      ∀ nodes turns entries done, R nodes turns entries done := by
  apply attributeOfPart.mutual_induct P Q R
  case case1 => exact fun nodes turns key entries _ => mapping nodes turns key entries
  case case2 => exact fun nodes turns key entries _ => mapping nodes turns key entries
  case case3 => exact knot
  case case4 =>
    intro nodes turns key n nodes' hn
    refine failed _ _ _ _ fun a h => ?_
    rw [attributeOfPart_knot_none hn] at h
    cases h
  case case5 =>
    -- A link that may not be followed any more is not read.
    intro nodes key n keyed
    refine failed _ _ _ _ fun a h => ?_
    rw [attributeOfPart] at h
    cases h
  case case6 => exact fun nodes key n keyed turns => link nodes turns key n keyed
  case case7 =>
    intro nodes key n keyed turns hn
    refine failed _ _ _ _ fun a h => ?_
    rw [attributeOfPart_link_none hn] at h
    cases h
  case case8 =>
    intro nodes turns key p hm hk hl
    refine failed _ _ _ _ fun a h => ?_
    rw [attributeOfPart_isOther ⟨hm, hk, hl⟩] at h
    cases h
  case case9 => exact allMapping
  case case10 => exact allKnot
  case case11 => exact noKnot
  case case12 =>
    intro nodes n keyed
    refine allFailed _ _ _ fun ps h => ?_
    rw [propertiesOfPart] at h
    cases h
  case case13 => exact fun nodes n keyed turns => allLink nodes turns n keyed
  case case14 => exact fun nodes n keyed turns => noLink nodes turns n keyed
  case case15 =>
    intro nodes turns p hm hk hl ht
    refine allFailed _ _ _ fun ps h => ?_
    rw [propertiesOfPart_isOther ⟨hm, hk, hl⟩, if_pos ht] at h
    cases h
  case case16 =>
    exact fun nodes turns p hm hk hl ht =>
      other nodes turns p ⟨hm, hk, hl⟩ (Bool.eq_false_iff.mpr ht)
  case case17 => exact nil
  case case18 => exact fun nodes turns done k v rest => cons nodes turns k v rest done

end SchemaForge
