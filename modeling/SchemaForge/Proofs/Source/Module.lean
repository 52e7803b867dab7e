import SchemaForge.Proofs.Source.Attribute
import SchemaForge.Proofs.Source.Frame

/-!
# Modules as they are read back

The text of a module (section 4.4 of the specification) is a comment, the import of the constructors
and the export of one object; the loader finds the object and makes the schema of it again, as far
as a module keeps it.
-/

namespace SchemaForge

open Encoder

variable {P : Value → Prop} {c : Collection} {text : String}

/-! ## Collections -/

/-- A collection is written as two members, the schema and the rules, of which the second one may be
absent. -/
theorem Collection.toSource_eq (c : Collection) :
    c.toSource = do
      let lines ← membersToSource c.schema.optional c.schema.properties
      let rules ← Source.memberUnless c.rules.isNull "rules"
        (liftM (Source.embedded c.rules (some 2)))
      return Fragment.block "\x7b" ((("schema: " ++ Source.tree "Schema" lines) ::
        rules.map fun m => m.1 ++ ": " ++ m.2).map (· ++ ",")) "\x7d" := by
  unfold Collection.toSource AttributeTree.toSource Source.memberUnless
  cases c.rules.isNull <;> simp

/-- What is written for a regular collection does not depend on the table. -/
theorem Collection.IsRegular.isSteady_toSource (h : c.IsRegular P) : IsSteady c.toSource := by
  rw [Collection.toSource_eq]
  exact isSteady_bind (isSteady_membersToSource _ h.properties _) fun _ =>
    isSteady_bind (Source.isSteady_memberUnless fun _ => isSteady_lift _) fun _ => isSteady_pure _

/-- A regular collection is written exactly when its members and its rules are, and then its text is
made of theirs. -/
theorem Collection.IsRegular.result_toSource (h : c.IsRegular P) :
    c.toSource.result = .ok text ↔
      ∃ lines, (membersToSource c.schema.optional c.schema.properties).result = .ok lines ∧
        ∃ rules, (Source.memberUnless c.rules.isNull "rules"
            (liftM (Source.embedded c.rules (some 2)))).result = .ok rules ∧
          Fragment.block "\x7b" ((("schema: " ++ Source.tree "Schema" lines) ::
            rules.map fun m => m.1 ++ ": " ++ m.2).map (· ++ ",")) "\x7d" = text := by
  have hrules : IsSteady (Source.memberUnless c.rules.isNull "rules"
      (liftM (Source.embedded c.rules (some 2)))) :=
    Source.isSteady_memberUnless fun _ => isSteady_lift _
  rw [Collection.toSource_eq, result_bind_eq_ok (isSteady_membersToSource _ h.properties _)
    fun _ => isSteady_bind hrules fun _ => isSteady_pure _]
  refine exists_congr fun lines => and_congr_right fun _ => ?_
  rw [result_bind_eq_ok hrules fun _ => isSteady_pure _]
  refine exists_congr fun rules => and_congr_right fun _ => ?_
  rw [result_pure, Except.ok.injEq]

/-- The object of a regular collection is read back by `loadCollection` as what a module keeps of
the collection. -/
theorem Collection.IsRegular.loads_toSource (h : c.IsRegular P)
    (ht : c.toSource.result = .ok text) :
    ∃ v, Source.Denotes text v ∧
      ∀ name, Source.loadCollection Source.builderName name v = .ok c.reloaded := by
  obtain ⟨lines, hlines, rules, hrules, rfl⟩ := h.result_toSource.mp ht
  have hname : Source.isName "Schema" = true := by decide
  obtain ⟨fields, hfields, hload⟩ := (loadsAs_membersToSource _ h.properties hlines).tree
    ((keys_reloadedProperties _).symm ▸ h.nodup) hname
  have hrules := Source.spells_memberUnless (by decide) (by decide) (fun _ => isSteady_lift _)
    (fun _ htext => Source.denotes_embedded (by rwa [result_lift] at htext))
    hrules
  have hschema := Source.spellsOne_name (by decide : Source.isName "schema" = true) (by decide)
    hfields
  -- The members of the object are `schema` and, where there are any, `rules`.
  have hn : (Entries.keys (("schema", .call [Source.builderName, "Schema"] [.record fields]) ::
      Source.fieldUnless c.rules.isNull "rules" c.rules.reloaded)).Nodup := by
    unfold Source.fieldUnless
    split_ifs <;> simp [Entries.keys]
  refine ⟨_, Source.denotes_block hn (.cons hschema hrules), fun name => ?_⟩
  have hroot : Source.loadRoot Source.builderName
      (.call [Source.builderName, "Schema"] [.record fields]) = .ok c.schema.reloaded := hload
  show ((Source.loadRoot Source.builderName _).bind fun t => Except.ok (Collection.mk t
    (Source.member "rules" (textEntries (("schema", _) :: _))))) = _
  rw [hroot, Source.member, Value.field?, textEntries.get?, Entries.get?, if_neg (by decide)]
  unfold Source.fieldUnless
  -- Rules that are absent are left out, and a member that is not there is read as absent.
  cases hnull : c.rules.isNull with
  | true =>
    rw [Collection.reloaded, Value.eq_null_of_isNull hnull]
    rfl
  | false => rfl

/-- What a module keeps of a regular collection is regular again. -/
theorem Collection.IsRegular.reloaded (h : c.IsRegular P) :
    c.reloaded.IsRegular fun _ => True := by
  refine ⟨(keys_reloadedProperties _).symm ▸ h.nodup, fun p hp => ?_, trivial⟩
  have hp : p ∈ reloadedProperties c.schema.properties := hp
  rw [reloadedProperties_eq_map] at hp
  obtain ⟨q, hq, rfl⟩ := List.mem_map.mp hp
  exact (h.properties q hq).reloaded

/-- What is kept of a regular collection is written like the collection. -/
theorem Collection.IsRegular.toSource_reloaded (h : c.IsRegular Value.IsCarried)
    (ht : c.toSource.result = .ok text) : c.reloaded.toSource.result = .ok text := by
  obtain ⟨lines, hlines, rules, hrules, rfl⟩ := h.result_toSource.mp ht
  refine h.reloaded.result_toSource.mpr ⟨lines, ?_, rules,
    (Source.result_memberUnless_reloaded h.rules hrules).2, rfl⟩
  refine membersToSource_reloaded _ h.properties hlines fun p hp => ?_
  rw [Collection.reloaded, AttributeTree.reloaded, contains_ownOptional h.nodup hp]
  cases hrelation : p.2.isRelation with
  | true => exact .inl rfl
  | false => exact .inr (Bool.and_true _)

/-! ## The exported object -/

variable {collections : List (String × Collection)}

/-- What is written for regular collections does not depend on the table. -/
theorem isSteady_collectionsToSource (h : ∀ p ∈ collections, p.2.IsRegular P) :
    IsSteady (collectionsToSource collections) := by
  induction collections with
  | nil => exact isSteady_pure _
  | cons p rest ih =>
    exact isSteady_bind (isSteady_quote _) fun _ =>
      isSteady_bind (h p List.mem_cons_self).isSteady_toSource fun _ =>
        isSteady_bind (ih fun q hq => h q (List.mem_cons_of_mem p hq)) fun _ => isSteady_pure _

/-- The exported object is written exactly when its first collection is and the others are. -/
theorem result_collectionsToSource_cons {name : String} (hc : c.IsRegular P)
    (h : ∀ p ∈ collections, p.2.IsRegular P) {lines : List String} :
    (collectionsToSource ((name, c) :: collections)).result = .ok lines ↔
      ∃ text more, c.toSource.result = .ok text ∧
        (collectionsToSource collections).result = .ok more ∧
          (Json.quote name ++ ": " ++ text ++ ",") :: more = lines := by
  have hrest := isSteady_collectionsToSource h
  rw [collectionsToSource, result_bind_eq_ok (isSteady_quote _) fun _ =>
    isSteady_bind hc.isSteady_toSource fun _ => isSteady_bind hrest fun _ => isSteady_pure _]
  -- Each step is steady, so that its result may be read off one bind at a time, in both directions.
  constructor
  · rintro ⟨quoted, hquoted, h⟩
    rw [result_quote] at hquoted
    cases hquoted
    obtain ⟨text, htext, h⟩ := (result_bind_eq_ok hc.isSteady_toSource fun _ =>
      isSteady_bind hrest fun _ => isSteady_pure _).mp h
    obtain ⟨more, hmore, h⟩ := (result_bind_eq_ok hrest fun _ => isSteady_pure _).mp h
    cases h
    exact ⟨text, more, htext, hmore, rfl⟩
  · rintro ⟨text, more, htext, hmore, rfl⟩
    refine ⟨_, result_quote name, (result_bind_eq_ok hc.isSteady_toSource fun _ =>
      isSteady_bind hrest fun _ => isSteady_pure _).mpr ⟨text, htext, ?_⟩⟩
    exact (result_bind_eq_ok hrest fun _ => isSteady_pure _).mpr ⟨more, hmore, rfl⟩

/-- The lines of the exported object are its members, and `loadCollections` makes of them what a
module keeps of the collections. -/
theorem loads_collectionsToSource (h : ∀ p ∈ collections, p.2.IsRegular P)
    {lines : List String} (ht : (collectionsToSource collections).result = .ok lines) :
    ∃ texts fields, lines = texts.map (· ++ ",") ∧
      Entries.keys fields = Entries.keys collections ∧
      List.Forall₂ (Source.SpellsOne Source.IsMember) texts fields ∧
      Source.loadCollections Source.builderName (textEntries fields)
        = .ok (collections.map fun p => (p.1, p.2.reloaded)) := by
  induction collections generalizing lines with
  | nil =>
    cases ht
    exact ⟨[], [], rfl, rfl, .nil, rfl⟩
  | cons p rest ih =>
    obtain ⟨name, c⟩ := p
    have hc := h _ List.mem_cons_self
    have hrest := fun q hq => h q (List.mem_cons_of_mem (name, c) hq)
    obtain ⟨text, more, htext, hmore, rfl⟩ := (result_collectionsToSource_cons hc hrest).mp ht
    obtain ⟨v, hv, hload⟩ := hc.loads_toSource htext
    obtain ⟨texts, fields, rfl, hkeys, hspells, hloads⟩ := ih hrest hmore
    refine ⟨(Json.quote name ++ ": " ++ text) :: texts, (name, v) :: fields, rfl,
      congrArg (name :: ·) hkeys, .cons (Source.spellsOne_quote name hv) hspells, ?_⟩
    -- The loader goes through the members in order, as the writer does.
    show ((Source.loadCollection Source.builderName name v).bind fun c =>
      (Source.loadCollections Source.builderName (textEntries fields)).bind fun cs =>
        Except.ok ((name, c) :: cs)) = _
    rw [hload, hloads]
    rfl

/-- What is kept of regular collections is written like the collections. -/
theorem collectionsToSource_reloaded (h : ∀ p ∈ collections, p.2.IsRegular Value.IsCarried)
    {lines : List String} (ht : (collectionsToSource collections).result = .ok lines) :
    (collectionsToSource (collections.map fun p => (p.1, p.2.reloaded))).result = .ok lines := by
  -- The lines of the others are not known before, so they are general in the induction.
  induction collections generalizing lines with
  | nil => exact ht
  | cons p rest ih =>
    obtain ⟨name, c⟩ := p
    have hc := h _ List.mem_cons_self
    have hrest := fun q hq => h q (List.mem_cons_of_mem (name, c) hq)
    obtain ⟨text, more, htext, hmore, rfl⟩ := (result_collectionsToSource_cons hc hrest).mp ht
    have hagain : ∀ q ∈ rest.map fun p => (p.1, p.2.reloaded), q.2.IsRegular fun _ => True := by
      intro q hq
      obtain ⟨p, hp, rfl⟩ := List.mem_map.mp hq
      exact (hrest p hp).reloaded
    exact (result_collectionsToSource_cons hc.reloaded hagain).mpr
      ⟨text, more, hc.toSource_reloaded htext, ih hrest hmore, rfl⟩

/-! ## Modules -/

variable {s : Schema} {o : ModuleOptions}

/-- What a module keeps of a regular schema is regular again. -/
theorem Schema.IsRegular.reloaded (h : s.IsRegular P) : s.reloaded.IsRegular fun _ => True := by
  have hkeys : Entries.keys s.reloaded.collections = Entries.keys s.collections := by
    rw [Schema.reloaded, Entries.keys, List.map_map]
    rfl
  refine ⟨hkeys ▸ h.nodup, fun p hp => ?_⟩
  obtain ⟨q, hq, rfl⟩ := List.mem_map.mp hp
  exact (h.collections q hq).reloaded

/-- What `encodeModule` writes of a regular schema does not depend on the table of quotes. -/
theorem Schema.IsRegular.isSteady_encodeModule (h : s.IsRegular P) :
    IsSteady (encodeModule o (some s)) :=
  isSteady_bind (isSteady_bind (isSteady_collectionsToSource h.collections) fun _ =>
    isSteady_pure _) fun _ => isSteady_pure _

/-- A regular schema is written exactly when its collections are, and then its module is the
`moduleText` around their lines. -/
theorem Schema.IsRegular.result_encodeModule (h : s.IsRegular P) :
    (encodeModule o (some s)).result = .ok text ↔
      ∃ lines, (collectionsToSource s.collections).result = .ok lines ∧
        moduleText o (if lines.isEmpty then "\x7b\x7d"
          else Fragment.block "\x7b" lines "\x7d") = text := by
  have hlines := isSteady_collectionsToSource h.collections
  have hbody : IsSteady (encodeCollections (some s)) :=
    isSteady_bind hlines fun _ => isSteady_pure _
  rw [encodeModule, result_bind_eq_ok hbody fun _ => isSteady_pure _]
  constructor
  · rintro ⟨body, hbody, h⟩
    obtain ⟨lines, hlines, heq⟩ := (result_bind_eq_ok hlines fun _ => isSteady_pure _).mp hbody
    cases heq
    cases h
    exact ⟨lines, hlines, rfl⟩
  · rintro ⟨lines, h, rfl⟩
    exact ⟨_, (result_bind_eq_ok hlines fun _ => isSteady_pure _).mpr ⟨lines, h, rfl⟩, rfl⟩

/-- The text of a regular schema is a module whose body denotes a value, and of this value
`loadSchema` makes what a module keeps of the schema. -/
theorem Schema.IsRegular.exists_body (h : s.IsRegular P)
    (ht : (encodeModule o (some s)).result = .ok text) :
    ∃ body v, text = moduleText o body ∧ Source.Denotes body v ∧
      Source.loadSchema Source.builderName v = .ok s.reloaded := by
  obtain ⟨lines, hlines, rfl⟩ := h.result_encodeModule.mp ht
  obtain ⟨texts, fields, rfl, hkeys, hspells, hload⟩ :=
    loads_collectionsToSource h.collections hlines
  have hn : (Entries.keys fields).Nodup := hkeys ▸ h.nodup
  refine ⟨_, .record fields, rfl, ?_, ?_⟩
  · cases hspells with
    | nil => exact Source.Reads.record hn ⟨_, Source.Spells.mark (by decide) .nil, .noMember⟩
    | cons hm hms => exact Source.denotes_block hn (.cons hm hms)
  · show ((Source.loadCollections Source.builderName (textEntries fields)).bind fun cs =>
      Except.ok (Schema.mk 0 cs)) = _
    rw [hload]
    rfl

/-- The module of a regular schema is loaded as what a module keeps of the schema,
`Schema.reloaded`. -/
theorem Schema.IsRegular.load_result (h : s.IsRegular P) (ho : o.IsSound)
    (ht : (encodeModule o (some s)).result = .ok text) :
    Source.load text.toList = .ok s.reloaded := by
  obtain ⟨body, v, rfl, hbody, hload⟩ := h.exists_body ht
  rw [Source.load_moduleText ho hbody, hload]

/-- What is kept of a regular schema has the same module as the schema. -/
theorem Schema.IsRegular.encodeModule_reloaded (h : s.IsRegular Value.IsCarried)
    (ht : (encodeModule o (some s)).result = .ok text) :
    (encodeModule o (some s.reloaded)).result = .ok text := by
  obtain ⟨lines, hlines, rfl⟩ := h.result_encodeModule.mp ht
  exact h.reloaded.result_encodeModule.mpr
    ⟨lines, collectionsToSource_reloaded h.collections hlines, rfl⟩

end SchemaForge
