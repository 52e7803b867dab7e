import SchemaForge.Proofs.Migration.Construction

/-!
# A schema built at once and attribute by attribute

The steps that make the collections of a schema at once (`bulkSteps`) and those that add its
attributes one by one (`Schema.fillSteps`, `Schema.growSteps`) lead to one working state, that of
the collections that `IsBuiltAs` relates to those of the schema. What is read of it is the schema,
but for the order in which optional keys are listed (`Attribute.Reorders`), which has no meaning.
-/

namespace SchemaForge

open Migration (RunsTo migrationOf Denotes)
open Operation (Specifies)

/-! ## The same schema -/

/-- The optional keys of every record in an attribute, at any depth, are keys of attributes of this
record. -/
inductive Attribute.NamesOwnKeys : Attribute → Prop
  /-- A primitive attribute has no optional keys. -/
  | primitive {kind : Value} {o : Options} : NamesOwnKeys (.primitive kind o)
  /-- Neither has a set. -/
  | set {items : Attribute} {o : Options} : NamesOwnKeys (.set items o)
  /-- A record with such keys. -/
  | record {properties : List (String × Attribute)} {optional : List String}
      (hoptional : ∀ key ∈ optional, key ∈ Entries.keys properties)
      (h : ∀ p ∈ properties, NamesOwnKeys p.2) : NamesOwnKeys (.record properties optional)
  /-- A relation has no optional keys. -/
  | relation {cardinality target : Value} {query : Query} :
      NamesOwnKeys (.relation cardinality target query)

/-- The rules of a collection are absent, or a mapping with texts as keys, as a step can give
them. -/
def Collection.HasTextRules (c : Collection) : Prop :=
  c.rules = .null ∨ ∃ fields, c.rules.entries? = some (textEntries fields) ∧
    (Entries.keys fields).Nodup

/-- The same attribute, with its own attributes in the same order at every depth; only optional keys
may be listed in another order, or more than once. -/
inductive Attribute.Reorders : Attribute → Attribute → Prop
  /-- The attribute itself. -/
  | refl (a : Attribute) : Reorders a a
  /-- A record with the same optional keys and attributes that are the same. -/
  | record {ps ps' : List (String × Attribute)} {optional optional' : List String}
      (hoptional : ∀ key, key ∈ optional' ↔ key ∈ optional)
      (hkeys : Entries.keys ps' = Entries.keys ps)
      (h : ∀ key a a', Entries.get? key ps = some a → Entries.get? key ps' = some a' →
        Reorders a a') :
      Reorders (.record ps optional) (.record ps' optional')

/-- The same collection, with the optional keys of its records in another order; rules that lie
within themselves are followed once. -/
structure Collection.Rebuilt (c d : Collection) : Prop where
  /-- The same attributes. -/
  schema : c.schema.toRecord.Reorders d.schema.toRecord
  /-- The same rules. -/
  rules : d.rules = c.rules.unroll

/-- The attributes of a tree are trimmed one by one, so that the lemmas about `Entries.mapValues`
apply. -/
theorem trimmedProperties_eq (ps : List (String × Attribute)) :
    trimmedProperties ps = Entries.mapValues Attribute.trimmed ps := by
  induction ps with
  | nil => rfl
  | cons p ps ih => rw [trimmedProperties, ih]; rfl

/-- Trimming only reorders the optional keys of an attribute, if they are all its own: it puts them
in the order of the attributes. -/
theorem Attribute.IsRead.reorders_trimmed {a : Attribute} (h : a.IsRead) (hown : a.NamesOwnKeys) :
    a.Reorders a.trimmed := by
  induction h with
  | primitive hk ho => exact .refl _
  | set hk ho ho' => exact .refl _
  | relation hc ht => exact .refl _
  | @record ps optional hn _ ih =>
    obtain ⟨hoptional, hall⟩ : (∀ key ∈ optional, key ∈ Entries.keys ps) ∧
        ∀ p ∈ ps, p.2.NamesOwnKeys := by
      cases hown with
      | record hoptional hall => exact ⟨hoptional, hall⟩
    -- The optional keys are the same ones, and under every key the attribute is trimmed.
    refine .record (fun key => ?_) (keys_trimmedProperties ps) fun key b b' hb hb' => ?_
    · rw [mem_listedOptional]
      exact ⟨fun h => h.1, fun h => ⟨h, hoptional key h⟩⟩
    · rw [trimmedProperties_eq, Entries.get?_mapValues, hb] at hb'
      cases hb'
      have hmem := Entries.mem_of_get? hb
      exact ih _ hmem (hall _ hmem)

/-! ## Working collections -/

/-- The collection of a working state that a collection of a schema is built as: its attributes are
the documents of the attributes, and its optional keys and its rules are the same. -/
structure IsBuiltAs (c : Collection) (k : WorkingCollection) : Prop where
  /-- The documents of the attributes. -/
  properties : propertiesToValues c.schema.properties = .ok k.record.properties
  /-- The optional keys in the order of the attributes. -/
  optional : k.record.optional = listedOptional c.schema.properties c.schema.optional
  /-- The rules. -/
  rules : c.rules = .null ∧ k.rules = none ∨ ∃ fields, k.rules = some fields ∧
    c.rules.entries? = some (textEntries fields) ∧ (Entries.keys fields).Nodup

variable {c : Collection} {k : WorkingCollection} {w : Working} {name : String}
  {cs : List (String × Collection)} {ks done : List (String × WorkingCollection)}

/-- The documents that `propertiesToValues` makes of attributes are under the keys of these. -/
theorem keys_propertiesToValues {ps : List (String × Attribute)} {fields : List (String × Value)}
    (h : propertiesToValues ps = .ok fields) : Entries.keys fields = Entries.keys ps := by
  -- Attributes are written one by one, each under the key it has.
  induction ps generalizing fields with
  | nil =>
    cases h
    rfl
  | cons p ps ih =>
    obtain ⟨v, -, h⟩ := Outcome.bind_eq_ok.mp h
    obtain ⟨rest, hrest, h⟩ := Outcome.bind_eq_ok.mp h
    cases h
    rw [Entries.keys, List.map_cons]
    exact congrArg (p.1 :: ·) (ih hrest)

/-- Every collection in the form of what is read is built as one of a working state. -/
theorem exists_isBuiltAs (h : AreRead c.schema.properties) (hrules : c.HasTextRules) :
    ∃ k, IsBuiltAs c k := by
  obtain ⟨fields, hfields, -⟩ := exists_propertiesToValues fun p hp => (h.isRead p hp).isReadBack
  rcases hrules with hnull | ⟨rules, hentries, hn⟩
  · exact ⟨⟨⟨fields, _⟩, none⟩, hfields, rfl, .inl ⟨hnull, rfl⟩⟩
  · exact ⟨⟨⟨fields, _⟩, some rules⟩, hfields, rfl, .inr ⟨rules, rfl, hentries, hn⟩⟩

/-- The parameters of `create_collection` that describe a collection specify the one that is
built. -/
theorem specifies_createParameters (h : IsBuiltAs c k) {fields : List (String × Value)}
    {keys : List String} (hn : (Entries.keys fields).Nodup) :
    Specifies (createParameters name (.record fields) (.list (keys.map .str)) c.rules)
      { k with record := ⟨fields, keys⟩ } := by
  have hparameters : ∀ other v,
      Entries.get? other ([("name", .str name), ("schema", .record fields),
        ("optional", .list (keys.map .str))] ++ if c.rules.isNull then [] else [("rules", c.rules)])
          = some v →
        (createParameters name (.record fields) (.list (keys.map .str)) c.rules).optional other
          = v := by
    intro other v hget
    rw [Parameters.optional, createParameters, Value.field?, textEntries.get?, hget,
      Option.getD_some]
  have hrules : (createParameters name (.record fields) (.list (keys.map .str)) c.rules).optional
      "rules" = c.rules := by
    cases hnull : c.rules.isNull with
    | true =>
      rw [createParameters, hnull, Value.eq_null_of_isNull hnull]
      rfl
    | false =>
      refine hparameters "rules" c.rules ?_
      rw [hnull]
      rfl
  refine ⟨?_, ?_, ?_, ?_⟩
  · rw [hparameters "schema" (.record fields) rfl]
    exact congrArg Except.ok (Parameters.withTextKeys_textEntries hn)
  · rw [hparameters "optional" (.list (keys.map .str)) rfl]
    exact congrArg Except.ok (Operation.map_text_map_str keys)
  -- rules that are null are left out of the parameters, and found absent there
  · rw [hrules]
    rcases h.rules with ⟨hnull, hnone⟩ | ⟨rules, hsome, hentries, hdistinct⟩
    · rw [hnull, hnone]
      rfl
    · have hnull : c.rules.isNull = false := Value.isNull_of_entries? hentries
      rw [Parameters.mappingOf, hnull, hentries, hsome]
      exact congrArg Except.ok (Parameters.withTextKeys_textEntries hdistinct)
  · rw [hrules]
    rcases h.rules with ⟨hnull, hnone⟩ | ⟨rules, hsome, hentries, -⟩
    · rw [hnull, hnone]
      rfl
    · rw [hsome, Value.isNull_of_entries? hentries]
      rfl

/-- One step makes a collection with all its attributes, its optional keys and its rules. -/
theorem runsTo_createStep (h : IsBuiltAs c k) {fields : List (String × Value)}
    {keys : List String} (hn : (Entries.keys fields).Nodup)
    (hnew : Entries.has name w.collections = false) :
    RunsTo [createStep name (.record fields) (.list (keys.map .str)) c.rules] w
      { w with
        collections := Entries.put name { k with record := ⟨fields, keys⟩ } w.collections } := by
  have hstep : Denotes (createStep name (.record fields) (.list (keys.map .str)) c.rules)
      .createCollection (createParameters name (.record fields) (.list (keys.map .str)) c.rules) :=
    ⟨_, _, "create_collection", rfl, rfl, rfl⟩
  exact Migration.runsTo_createCollection hstep rfl hnew (specifies_createParameters h hn)

/-- A collection has steps that add its attributes, and these build its record out of an empty
one. -/
theorem exists_addSteps (name : String) (hread : AreRead c.schema.properties) (h : IsBuiltAs c k) :
    ∃ steps, c.addSteps name = .ok steps ∧ Builds name steps ⟨[], []⟩ k.record := by
  have hframes : ∀ f ∈ ([] : List (String × WorkingRecord)), f.2.IsSound :=
    fun _ hf => absurd hf List.not_mem_nil
  obtain ⟨steps, hsteps, hbuilds⟩ := exists_addAllSteps (n := ⟨[], []⟩)
    (fun p hp => (hread.isRead p hp).isBuilt) h.properties name c.schema.optional hframes
    hread.nodup fun _ _ => List.not_mem_nil
  refine ⟨steps, hsteps, ?_⟩
  have hrecord : (⟨[] ++ k.record.properties, [] ++ listedOptional c.schema.properties
      c.schema.optional⟩ : WorkingRecord) = k.record := by
    rw [← h.optional]
    rfl
  rwa [hrecord] at hbuilds

/-! ## States -/

/-- The collection without attributes and optional keys, but with its rules. -/
def WorkingCollection.emptied (k : WorkingCollection) : WorkingCollection :=
  { k with record := ⟨[], []⟩ }

section States

variable (version : ℤ)

/-- The step that the document of a collection describes makes the collection that is built. -/
theorem createStepOf_toValue {v : Value} (h : IsBuiltAs c k) (hv : c.toValue = .ok v) :
    createStepOf name v = createStep name (.record k.record.properties)
      (.list (k.record.optional.map .str)) c.rules := by
  rw [Collection.toValue, AttributeTree.toValue, AttributeTree.toRecord, Attribute.toValue,
    h.properties] at hv
  cases hv
  rw [h.optional]
  cases hnull : c.rules.isNull with
  | true =>
    rw [Value.eq_null_of_isNull hnull]
    rfl
  | false => rfl

/-- Where all names are distinct, a new collection has a name that is not among those that are
`done`. -/
theorem has_eq_false_of_nodup (hn : (Entries.keys (done ++ (name, k) :: ks)).Nodup) :
    Entries.has name done = false := by
  rw [← Bool.not_eq_true, Entries.has_iff]
  exact Entries.not_mem_keys_of_nodup hn

/-- The steps that the documents of collections describe make all of them, one step for each. -/
theorem runsTo_bulk {documents : List (String × Value)}
    (h : Entries.Related (fun _ => IsBuiltAs) cs ks)
    (hread : ∀ p ∈ cs, AreRead p.2.schema.properties)
    (hn : (Entries.keys (done ++ ks)).Nodup) (hdocuments : collectionsToValues cs = .ok documents) :
    RunsTo (documents.map fun d => createStepOf d.1 d.2) ⟨version, done⟩
      ⟨version, done ++ ks⟩ := by
  induction h generalizing done documents with
  | nil =>
    cases hdocuments
    rw [List.append_nil]
    exact .nil
  | @cons p q cs ks hpq _ ih =>
    obtain ⟨name, c⟩ := p
    obtain ⟨_, k⟩ := q
    obtain ⟨rfl, hk⟩ := hpq
    obtain ⟨v, hv, hdocuments⟩ := Outcome.bind_eq_ok.mp hdocuments
    obtain ⟨rest, hrest, hdocuments⟩ := Outcome.bind_eq_ok.mp hdocuments
    cases hdocuments
    -- The first step makes a collection that was not there, so it comes behind those that are done.
    have hkeys : (Entries.keys k.record.properties).Nodup := by
      rw [keys_propertiesToValues hk.properties]
      exact (hread _ List.mem_cons_self).nodup
    have hfirst : RunsTo [createStep name (.record k.record.properties)
        (.list (k.record.optional.map .str)) c.rules] ⟨version, done⟩
          ⟨version, Entries.put name k done⟩ :=
      runsTo_createStep hk hkeys (has_eq_false_of_nodup hn)
    rw [← createStepOf_toValue hk hv,
      Entries.put_of_not_mem (Entries.not_mem_keys_of_nodup hn)] at hfirst
    have hothers := ih (fun p hp => hread p (List.mem_cons_of_mem _ hp))
      (Entries.nodup_keys_append_cons hn k) hrest
    rw [List.append_assoc] at hothers
    exact hfirst.append hothers

/-- The step `Collection.emptyStep` makes a new collection without attributes at the end of the
state. -/
theorem runsTo_emptyStep (h : IsBuiltAs c k)
    (hn : (Entries.keys (done ++ (name, k) :: ks)).Nodup) :
    RunsTo [c.emptyStep name] ⟨version, done⟩ ⟨version, done ++ [(name, k.emptied)]⟩ := by
  have hnil : (Entries.keys ([] : List (String × Value))).Nodup := List.nodup_nil
  have hrun : RunsTo [createStep name (.record []) (.list (([] : List String).map .str)) c.rules]
      ⟨version, done⟩ ⟨version, Entries.put name { k with record := ⟨[], []⟩ } done⟩ :=
    runsTo_createStep h hnil (has_eq_false_of_nodup hn)
  rwa [Entries.put_of_not_mem (Entries.not_mem_keys_of_nodup hn)] at hrun

/-- The steps that make collections without attributes make all of them, one step for each. -/
theorem runsTo_emptySteps (h : Entries.Related (fun _ => IsBuiltAs) cs ks)
    (hn : (Entries.keys (done ++ ks)).Nodup) :
    RunsTo (cs.map fun p => p.2.emptyStep p.1) ⟨version, done⟩
      ⟨version, done ++ Entries.mapValues WorkingCollection.emptied ks⟩ := by
  -- The induction is on the collections that are still to be made; those in `done` are there
  -- already.
  induction h generalizing done with
  | nil =>
    show RunsTo [] ⟨version, done⟩ ⟨version, done ++ []⟩
    rw [List.append_nil]
    exact .nil
  | @cons p q cs ks hpq _ ih =>
    obtain ⟨name, c⟩ := p
    obtain ⟨_, k⟩ := q
    obtain ⟨rfl, hk⟩ := hpq
    have hfirst := runsTo_emptyStep version hk hn
    have hothers := ih (Entries.nodup_keys_append_cons hn k.emptied)
    rw [List.append_assoc] at hothers
    exact hfirst.append hothers

/-- The steps that add all attributes, one collection after the other, make what is built of the
empty collections. -/
theorem exists_addStepsOfAll (h : Entries.Related (fun _ => IsBuiltAs) cs ks)
    (hread : ∀ p ∈ cs, AreRead p.2.schema.properties)
    (hn : (Entries.keys (done ++ ks)).Nodup) :
    ∃ steps, addStepsOfAll cs = .ok steps ∧
      RunsTo steps ⟨version, done ++ Entries.mapValues WorkingCollection.emptied ks⟩
        ⟨version, done ++ ks⟩ := by
  induction h generalizing done with
  | nil => exact ⟨[], rfl, .nil⟩
  | @cons p q cs ks hpq _ ih =>
    obtain ⟨name, c⟩ := p
    obtain ⟨_, k⟩ := q
    obtain ⟨rfl, hk⟩ := hpq
    obtain ⟨steps, hsteps, hbuilds⟩ := exists_addSteps name (hread _ List.mem_cons_self) hk
    obtain ⟨others, hothers, hrun⟩ := ih (fun p hp => hread p (List.mem_cons_of_mem _ hp))
      (Entries.nodup_keys_append_cons hn k)
    have hnew := Entries.not_mem_keys_of_nodup hn
    -- the collections that come later are there already, without attributes
    have hfirst := hbuilds ⟨version, done ++ (name, k.emptied)
      :: Entries.mapValues WorkingCollection.emptied ks⟩ k.rules (Entries.get?_append_cons hnew)
    rw [Entries.put_append_cons hnew] at hfirst
    rw [List.append_assoc, List.append_assoc] at hrun
    refine ⟨steps ++ others, ?_, hfirst.append hrun⟩
    rw [addStepsOfAll, hsteps, hothers]
    rfl

/-- The steps that make collections one after the other and attribute by attribute make what is
built. -/
theorem exists_growSteps (h : Entries.Related (fun _ => IsBuiltAs) cs ks)
    (hread : ∀ p ∈ cs, AreRead p.2.schema.properties)
    (hn : (Entries.keys (done ++ ks)).Nodup) :
    ∃ steps, growStepsOfAll cs = .ok steps ∧
      RunsTo steps ⟨version, done⟩ ⟨version, done ++ ks⟩ := by
  induction h generalizing done with
  | nil => exact ⟨[], rfl, by rw [List.append_nil]; exact .nil⟩
  | @cons p q cs ks hpq _ ih =>
    obtain ⟨name, c⟩ := p
    obtain ⟨_, k⟩ := q
    obtain ⟨rfl, hk⟩ := hpq
    obtain ⟨steps, hsteps, hbuilds⟩ := exists_addSteps name (hread _ List.mem_cons_self) hk
    obtain ⟨others, hothers, hrun⟩ := ih (fun p hp => hread p (List.mem_cons_of_mem _ hp))
      (Entries.nodup_keys_append_cons hn k)
    -- The collection is made empty and then filled, before the next one is made.
    have hnew := Entries.not_mem_keys_of_nodup hn
    have hempty := runsTo_emptyStep version hk hn
    have hfilled := hbuilds ⟨version, done ++ [(name, k.emptied)]⟩ k.rules
      (Entries.get?_append_cons hnew)
    rw [Entries.put_append_cons hnew] at hfilled
    rw [List.append_assoc] at hrun
    refine ⟨(c.emptyStep name :: steps) ++ others, ?_, (hempty.append hfilled).append hrun⟩
    rw [growStepsOfAll, hsteps, hothers]
    rfl

end States

/-! ## Readings -/

/-- What is read of a collection that is built is the collection, but for the order of optional
keys. -/
theorem exists_rebuilt (h : IsBuiltAs c k) (hread : AreRead c.schema.properties)
    (hown : c.schema.toRecord.NamesOwnKeys) :
    ∃ d, Collection.ofValue k.toValue = .ok d ∧ c.Rebuilt d := by
  obtain ⟨fields, hfields, hentries⟩ :=
    exists_propertiesToValues fun p hp => (hread.isRead p hp).isReadBack
  obtain rfl : fields = k.record.properties :=
    Except.ok.inj (hfields.symm.trans h.properties)
  -- The attributes and the optional keys of the working state read as those that are kept of the
  -- collection.
  have hproperties : propertiesOfPart [] 0 (.record k.record.properties)
      = .ok (trimmedProperties c.schema.properties) :=
    propertiesOfPart_of_trimmed hread.nodup hentries
  have hoptional : optionalKeys (.list (k.record.optional.map .str))
      = .ok (listedOptional c.schema.properties c.schema.optional) := by
    rw [h.optional, optionalKeys_texts, listedOptional, eraseDups_of_nodup (hread.nodup.filter _)]
  have htree : AttributeTree.ofValues (.record k.record.properties)
      (.list (k.record.optional.map .str)) = .ok c.schema.trimmed := by
    rw [AttributeTree.ofValues, hproperties, hoptional]
    rfl
  refine ⟨⟨c.schema.trimmed, k.rulesValue⟩, ?_, ?_, ?_⟩
  · rw [k.read_eq, htree]
    rfl
  · exact (Attribute.IsRead.record hread.nodup hread.isRead).reorders_trimmed hown
  · rcases h.rules with ⟨hnull, hnone⟩ | ⟨rules, hsome, hrules, -⟩
    · rw [hnull, WorkingCollection.rulesValue, hnone]
      rfl
    · rw [Value.unroll_of_entries? hrules, WorkingCollection.rulesValue, hsome]
      rfl

/-- What is read of collections that are built are the collections, but for the order of optional
keys. -/
theorem exists_allRebuilt (h : Entries.Related (fun _ => IsBuiltAs) cs ks)
    (hread : ∀ p ∈ cs, AreRead p.2.schema.properties)
    (hown : ∀ p ∈ cs, p.2.schema.toRecord.NamesOwnKeys) :
    ∃ ds, Entries.Related (fun _ k d => Collection.ofValue k.toValue = .ok d) ks ds ∧
      Entries.Related (fun _ => Collection.Rebuilt) cs ds := by
  induction h with
  | nil => exact ⟨[], .nil, .nil⟩
  | @cons p q cs ks hpq _ ih =>
    obtain ⟨d, hd, hrebuilt⟩ :=
      exists_rebuilt hpq.2 (hread _ List.mem_cons_self) (hown _ List.mem_cons_self)
    obtain ⟨ds, hds, hrelated⟩ := ih (fun p hp => hread p (List.mem_cons_of_mem _ hp))
      fun p hp => hown p (List.mem_cons_of_mem _ hp)
    exact ⟨(q.1, d) :: ds, .cons ⟨rfl, hd⟩ hds, .cons ⟨hpq.1, hrebuilt⟩ hrelated⟩

/-! ## Resolution -/

/-- The steps of the document of a schema are those of the documents of its collections. -/
theorem bulkSteps_record (version : Int) (documents : List (String × Value)) :
    bulkSteps (.record [("version", .int version), ("collections", .record documents)])
      = documents.map fun d => createStepOf d.1 d.2 := by
  show (textEntries documents).map (fun e => createStepOf e.1.text e.2) = _
  rw [textEntries, List.map_map]
  rfl

/-- A schema that is read of a document is built at once, by the steps that make its collections as
its document describes them, and it is built attribute by attribute, whether all collections are
made first or one is filled before the next one is made. Each is one migration, and all lead to one
schema, which is the same but for its version. -/
theorem resolve_bulk_eq_stepwise {document : Value} {s : Schema}
    (hs : Schema.ofValue document = .ok (some s))
    (hown : ∀ p ∈ s.collections, p.2.schema.toRecord.NamesOwnKeys)
    (hrules : ∀ p ∈ s.collections, p.2.HasTextRules) (version : Int) :
    ∃ written filled grown s', s.toValue = .ok written ∧ s.fillSteps = .ok filled ∧
      s.growSteps = .ok grown ∧
        Migration.resolve (.list [migrationOf version (bulkSteps written)]) = .ok (some s') ∧
        Migration.resolve (.list [migrationOf version filled]) = .ok (some s') ∧
        Migration.resolve (.list [migrationOf version grown]) = .ok (some s') ∧
          s'.version = version ∧
            Entries.Related (fun _ => Collection.Rebuilt) s.collections s'.collections := by
  have hread := Schema.isRead_ofValue hs
  obtain ⟨ks, hks⟩ : ∃ ks, Entries.Related (fun _ => IsBuiltAs) s.collections ks :=
    Entries.Related.exists_of_forall fun p hp => exists_isBuiltAs (hread.areRead p hp) (hrules p hp)
  have hn : (Entries.keys ([] ++ ks)).Nodup := by
    rw [List.nil_append, hks.keys_eq]
    exact hread.nodup
  -- all three ways lead to the collections that are built
  obtain ⟨documents, hdocuments, -⟩ := exists_collectionsToValues hread.areRead
  have hwritten : s.toValue
      = .ok (.record [("version", .int s.version), ("collections", .record documents)]) := by
    rw [Schema.toValue, hdocuments]
    rfl
  have hbulk : RunsTo (documents.map fun d => createStepOf d.1 d.2) ⟨0, []⟩ ⟨0, ks⟩ :=
    runsTo_bulk 0 hks hread.areRead hn hdocuments
  obtain ⟨added, hadded, hadds⟩ := exists_addStepsOfAll 0 hks hread.areRead hn
  obtain ⟨grown, hgrown, hgrows⟩ := exists_growSteps 0 hks hread.areRead hn
  have hfilled : RunsTo ((s.collections.map fun p => p.2.emptyStep p.1) ++ added) ⟨0, []⟩ ⟨0, ks⟩ :=
    (runsTo_emptySteps 0 hks hn).append hadds
  -- and of these the schema is read
  obtain ⟨ds, hds, hrebuilt⟩ := exists_allRebuilt hks hread.areRead hown
  have hcollections := (collectionsOfEntries_texts_iff (by rwa [Entries.keys_mapValues])).mpr
    (Entries.Related.mapValues_left_iff.mpr hds)
  have hstate : Schema.ofValue (Working.toValue ⟨version, ks⟩) = .ok (some ⟨version, ds⟩) := by
    rw [Working.read_eq, hcollections]
    rfl
  refine ⟨_, (s.collections.map fun p => p.2.emptyStep p.1) ++ added, grown, ⟨version, ds⟩,
    hwritten, ?_, hgrown, ?_, ?_, ?_, rfl, hrebuilt⟩
  · rw [Schema.fillSteps, hadded]
    rfl
  · rw [bulkSteps_record]
    exact Migration.resolve_of_runsTo version hbulk hstate
  · exact Migration.resolve_of_runsTo version hfilled hstate
  · exact Migration.resolve_of_runsTo version hgrows hstate

/-- A schema of notes with rules, in which a place lies within a record, and the optional keys are
not in the order of the attributes. -/
def placedNotes : Schema where
  version := 4
  collections := [("tags", { schema := ⟨[], []⟩ }), ("notes", {
    schema := {
      properties := [("title", .primitive (.str "string") {}),
        ("details", .record [("author", .relation (.str "one") (.str "people") {}),
          ("place", .record [("city", .primitive (.str "string") {})] ["city"])] ["place"]),
        ("marks", .set (.primitive (.str "number") {}) {})]
      optional := ["marks", "title"] }
    rules := .record [("read", .record [("all", .bool true)])] })]

/-- An instance of `resolve_bulk_eq_stepwise` for the schema `placedNotes`, with records within
records: the notes are built at once, or attribute by attribute. -/
theorem resolve_bulk_eq_stepwise_placedNotes : ∃ document written filled grown s',
    Schema.ofValue document = .ok (some placedNotes) ∧ placedNotes.toValue = .ok written ∧
      placedNotes.fillSteps = .ok filled ∧ placedNotes.growSteps = .ok grown ∧
        Migration.resolve (.list [migrationOf (-1) (bulkSteps written)]) = .ok (some s') ∧
        Migration.resolve (.list [migrationOf (-1) filled]) = .ok (some s') ∧
        Migration.resolve (.list [migrationOf (-1) grown]) = .ok (some s') ∧ s'.version = -1 ∧
          Entries.Related (fun _ => Collection.Rebuilt) placedNotes.collections s'.collections := by
  let kind (name : String) : Value := .record [("type", .str name)]
  let record (properties : List (String × Value)) (optional : List Value) : Value := .record
    [("type", .str "record"), ("properties", .record properties), ("optional", .list optional)]
  let document : Value := .record [("version", .int 4), ("collections", .record [
    ("tags", .record [("schema", record [] [])]),
    ("notes", .record [("schema", record [("title", kind "string"),
      ("details", record [
        ("author", .record [("type", .str "query"), ("cardinality", .str "one"),
          ("query", .record [("collectionName", .str "people")])]),
        ("place", record [("city", kind "string")] [.str "city"])] [.str "place"]),
      ("marks", .record [("type", .str "set"), ("items", kind "number")])]
        [.str "marks", .str "title"]),
      ("rules", .record [("read", .record [("all", .bool true)])])])])]
  have hread : Schema.ofValue document = .ok (some placedNotes) := by cbv
  -- From the innermost record outwards: each one names only keys that it has.
  have hplace :
      (Attribute.record [("city", .primitive (.str "string") {})] ["city"]).NamesOwnKeys :=
    .record (by decide) (List.forall_mem_singleton.mpr .primitive)
  have hdetails : (Attribute.record [("author", .relation (.str "one") (.str "people") {}),
      ("place", .record [("city", .primitive (.str "string") {})] ["city"])]
        ["place"]).NamesOwnKeys :=
    .record (by decide) (List.forall_mem_cons.mpr ⟨.relation, List.forall_mem_singleton.mpr hplace⟩)
  have hown : ∀ p ∈ placedNotes.collections, p.2.schema.toRecord.NamesOwnKeys := by
    refine List.forall_mem_cons.mpr ⟨.record (by decide) (by simp), ?_⟩
    refine List.forall_mem_singleton.mpr (.record (by decide) ?_)
    exact List.forall_mem_cons.mpr ⟨.primitive, List.forall_mem_cons.mpr
      ⟨hdetails, List.forall_mem_singleton.mpr .set⟩⟩
  have hrules : ∀ p ∈ placedNotes.collections, p.2.HasTextRules := by
    refine List.forall_mem_cons.mpr ⟨.inl rfl, List.forall_mem_singleton.mpr (.inr ?_)⟩
    exact ⟨[("read", .record [("all", .bool true)])], rfl, by decide⟩
  obtain ⟨written, filled, grown, s', h⟩ := resolve_bulk_eq_stepwise hread hown hrules (-1)
  exact ⟨document, written, filled, grown, s', hread, h⟩

end SchemaForge
