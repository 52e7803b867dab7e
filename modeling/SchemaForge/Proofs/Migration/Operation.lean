import SchemaForge.Proofs.Migration.Location

/-!
# What operations do to working states

For each operation in the table of section 6.1 of the specification, the working state that it
leaves when it succeeds (`Operation.Leads`), and that it is orderly on every sound state, whatever
its parameters are (`Operation.does_run`). This is the effect on the data as they are; how the
schema changes with them is another question.
-/

namespace SchemaForge

open Change (withPart Does)

namespace Operation

variable {ps : Parameters} {w : Working} {base v : Value} {r : WorkingRecord} {key : String}

/-! ## Attributes -/

/-- A new attribute at the end, a copy of the mapping that the parameters give, and optional as they
say. -/
def Adds (ps : Parameters) (key : String) (r r' : WorkingRecord) : Prop :=
  Entries.has key r.properties = false ∧ ∃ added entries, ps.required "attribute" = .ok added ∧
    added.entries? = some entries ∧
      r' = ⟨Entries.put key (.mapping entries) r.properties,
        withOptional key (ps.optional "optional").isTruthy r.optional⟩

/-- An attribute less, and its key is not among the optional keys either. -/
def Drops (key : String) (r r' : WorkingRecord) : Prop :=
  Entries.has key r.properties = true ∧
    r' = ⟨Entries.remove key r.properties, withOptional key false r.optional⟩

/-- An attribute that is there becomes optional or not, as the parameters say. -/
def Marks (ps : Parameters) (key : String) (r r' : WorkingRecord) : Prop :=
  Entries.has key r.properties = true ∧ ∃ flag, ps.required "optional" = .ok flag ∧
    r' = { r with optional := withOptional key flag.isTruthy r.optional }

/-- The settings that operations find in an attribute, under the texts of their keys, and none where
there is no mapping of settings. -/
def HasOptions (v : Value) (fields : List (String × Value)) : Prop :=
  ∃ o, v.get "options" = .ok o ∧ Parameters.mappingOf "options" o = .ok (textEntries fields)

/-- An attribute whose settings are changed by `f`; all its other parts stay. -/
def Resets (f : List (String × Value) → List (String × Value)) (key : String)
    (r r' : WorkingRecord) : Prop :=
  ∃ v fields, Entries.get? key r.properties = some v ∧ HasOptions v fields ∧
    r' = { r with
      properties := Entries.put key (withPart "options" (.record (f fields)) v) r.properties }

/-- An attribute gets the settings that the parameters name, and keeps its other settings. -/
def Alters (ps : Parameters) (key : String) (r r' : WorkingRecord) : Prop :=
  ∃ given changed, ps.required "options" = .ok given ∧
    Parameters.mappingOf "options" given = .ok (textEntries changed) ∧
      Resets (Entries.putAll · changed) key r r'

/-- The attribute under the key loses the setting that the parameter `option` names, among its
settings as they are read by the texts of their keys (`Resets`). -/
def Unsets (ps : Parameters) (key : String) (r r' : WorkingRecord) : Prop :=
  ∃ option, ps.nameOf "option" = .ok option ∧ Resets (Entries.remove option) key r r'

/-- A new attribute is put at the end of others, or refused where there is one of its key. -/
theorem does_addProperty (key : String) (fields : List (String × Value)) :
    Does Value.record (fun ps => (Entries.keys ps).Nodup) (do
        if ← .holds key then .fail (.attributeExists key)
        let added ← ps.required "attribute"
        match added.entries? with
        | some entries => .write key (.mapping entries)
        | none => .fail (.notMapping "attribute" added)) fields fun _ fields' =>
      Entries.has key fields = false ∧ ∃ added entries, ps.required "attribute" = .ok added ∧
        added.entries? = some entries ∧ fields' = Entries.put key (.mapping entries) fields := by
  refine Does.bind (Change.does_holds Value.contains_record) ?_
  rintro _ fields ⟨rfl, rfl⟩
  refine Change.does_unless (by simp) fun hnew => ?_
  refine Does.bind (Change.does_lift Parameters.isOrderly_required) ?_
  rintro added fields ⟨hadded, rfl⟩
  cases hentries : added.entries? with
  | none => exact Change.does_fail (by simp)
  | some entries =>
    refine Does.mono (Change.does_write Entries.nodup_keys_put Value.put_record) ?_
    rintro - _ rfl
    exact ⟨hnew, added, entries, hadded, hentries, rfl⟩

/-- The operation `runAddAttribute` is orderly, and makes the change `Adds` at the end of the
path. -/
theorem does_addAttribute : Does Working.toValue Working.IsSound (runAddAttribute ps) w fun _ w' =>
    LocatedChange ps (Adds ps) w w' := by
  refine does_locate fun base key r hb => ?_
  refine Does.bind (WorkingRecord.does_inProperties hb (does_addProperty key r.properties)) ?_
  rintro - _ ⟨_, -, ⟨hnew, added, entries, hadded, hentries, rfl⟩, rfl⟩
  refine (does_setOptional hb key _).mono ?_
  rintro - _ rfl
  exact ⟨hnew, added, entries, hadded, hentries, rfl⟩

/-- A key under which something is found is one that `has` knows. -/
theorem has_of_get? {κ : Type u} {α : Type v} [BEq κ] {key : κ} {a : α} {es : List (κ × α)}
    (h : Entries.get? key es = some a) : Entries.has key es = true := by
  rw [Entries.has, h]
  rfl

/-- What goes on after `attributeIn` is done if there is an attribute, and refused otherwise. -/
theorem does_ifAttribute {fields : List (String × Value)} {rest : Value → Change Refusal Unit}
    {P : Unit → List (String × Value) → Prop}
    (h : Entries.has key fields = true → ∀ v, Does Value.record
      (fun ps => (Entries.keys ps).Nodup) (rest v) fields P) :
    Does Value.record (fun ps => (Entries.keys ps).Nodup)
      (do let found ← attributeIn key (← get); rest found) fields P := by
  refine Does.bind Change.does_get ?_
  rintro _ _ ⟨rfl, rfl⟩
  rcases attributeIn_record key ‹_› with ⟨v, hget, -, hpart⟩ | ⟨cause, hcause, hpart⟩
  · rw [hpart]
    refine Does.bind (Change.does_lift trivial) ?_
    rintro v fields ⟨-, rfl⟩
    exact h (has_of_get? hget) v
  · rw [hpart]
    refine Does.bind (Change.does_lift hcause) ?_
    rintro v fields ⟨hv, -⟩
    cases hv

/-- An attribute is taken away from others, or refused where there is none. -/
theorem does_dropProperty (key : String) (fields : List (String × Value)) :
    Does Value.record (fun ps => (Entries.keys ps).Nodup) (do
        let _ ← attributeIn key (← get)
        .erase key) fields fun _ fields' =>
      Entries.has key fields = true ∧ fields' = Entries.remove key fields := by
  refine does_ifAttribute fun hhas _ => ?_
  refine Does.mono (Change.does_erase Entries.nodup_keys_remove (Value.delete_record hhas)) ?_
  rintro - _ rfl
  exact ⟨hhas, rfl⟩

/-- The operation `runDropAttribute` is orderly, and makes the change `Drops` at the end of the
path. -/
theorem does_dropAttribute :
    Does Working.toValue Working.IsSound (runDropAttribute ps) w fun _ w' =>
      LocatedChange ps Drops w w' := by
  refine does_locate fun base key r hb => ?_
  refine Does.bind (WorkingRecord.does_inProperties hb (does_dropProperty key r.properties)) ?_
  rintro - _ ⟨_, -, ⟨hhas, rfl⟩, rfl⟩
  refine (does_setOptional hb key _).mono ?_
  rintro - _ rfl
  exact ⟨hhas, rfl⟩

/-- An attribute has to be among the properties, else `attributeIn` refuses it; nothing is done to
it. -/
theorem does_findProperty (key : String) (fields : List (String × Value)) :
    Does Value.record (fun ps => (Entries.keys ps).Nodup) (do
        let _ ← attributeIn key (← get)) fields fun _ fields' =>
      Entries.has key fields = true ∧ fields' = fields :=
  does_ifAttribute fun hhas _ => (Change.does_pure ()).mono fun _ _ h => ⟨hhas, h.2⟩

/-- The operation `runSetAttributeOptional` is orderly, and makes the change `Marks` at the end of
the path. -/
theorem does_setAttributeOptional :
    Does Working.toValue Working.IsSound (runSetAttributeOptional ps) w fun _ w' =>
      LocatedChange ps (Marks ps) w w' := by
  refine does_locate fun base key r hb => ?_
  refine Does.bind (WorkingRecord.does_inProperties hb (does_findProperty key r.properties)) ?_
  rintro - _ ⟨_, -, ⟨hhas, rfl⟩, rfl⟩
  refine Does.bind (Change.does_lift Parameters.isOrderly_required) ?_
  rintro flag _ ⟨hflag, rfl⟩
  refine (does_setOptional hb key _).mono ?_
  rintro - _ rfl
  exact ⟨hhas, flag, hflag, rfl⟩

/-- The function `currentOptions` reads the settings of an attribute, or refuses what is no mapping
of settings. -/
theorem does_currentOptions (hv : v.isMapping = true) :
    Does id (fun v => v.isMapping = true) currentOptions v fun current v' =>
      (∃ fields, current = textEntries fields ∧ HasOptions v fields) ∧ v' = v := by
  obtain ⟨es, hes⟩ := Value.exists_entries? hv
  have ho := Value.get_of_entries? "options" hes
  refine Does.bind (Change.does_look ho) ?_
  rintro o _ ⟨rfl, rfl⟩
  refine Does.mono (Change.does_lift Parameters.isOrderly_mappingOf) ?_
  rintro current _ ⟨hcurrent, rfl⟩
  obtain ⟨fields, -, rfl⟩ := Parameters.exists_fields_of_mappingOf hcurrent
  exact ⟨⟨fields, rfl, _, ho, hcurrent⟩, rfl⟩

/-- The settings of an attribute are replaced: the new ones stand under `options`, and the other
parts of the attribute stay (`withPart`). -/
theorem does_writeOptions (hv : v.isMapping = true) (fields : List (String × Value)) :
    Does id (fun v => v.isMapping = true) (.write "options" (.mapping (textEntries fields))) v
      fun _ v' => v' = withPart "options" (.record fields) v :=
  Change.does_write (fun hv => Value.isMapping_withPart hv _ _) (Value.put_of_isMapping hv _ _)

/-- The operation `runAlterAttributeOption` is orderly, and makes the change `Alters` at the end of
the path. -/
theorem does_alterAttributeOption :
    Does Working.toValue Working.IsSound (runAlterAttributeOption ps) w fun _ w' =>
      LocatedChange ps (Alters ps) w w' := by
  refine does_locate fun base key r hb => ?_
  refine Does.mono (does_inAttribute hb (G := fun v v' => ∃ given changed fields,
    ps.required "options" = .ok given ∧
      Parameters.mappingOf "options" given = .ok (textEntries changed) ∧ HasOptions v fields ∧
        v' = withPart "options" (.record (Entries.putAll fields changed)) v) fun v hv => ?_) ?_
  -- The steps of the operation in turn: the settings that there are, the ones that are given, and
  -- what both make.
  · refine Does.bind (does_currentOptions hv) ?_
    rintro _ v ⟨⟨fields, rfl, hfields⟩, rfl⟩
    refine Does.bind (Change.does_lift Parameters.isOrderly_required) ?_
    rintro given v ⟨hgiven, rfl⟩
    refine Does.bind (Change.does_lift Parameters.isOrderly_mappingOf) ?_
    rintro _ v ⟨hchanged, rfl⟩
    obtain ⟨changed, -, rfl⟩ := Parameters.exists_fields_of_mappingOf hchanged
    rw [textEntries.putAll]
    exact (does_writeOptions hv _).mono fun _ _ h =>
      ⟨given, changed, fields, hgiven, hchanged, hfields, h⟩
  · rintro - _ ⟨v, _, hget, ⟨given, changed, fields, hgiven, hchanged, hfields, rfl⟩, rfl⟩
    exact ⟨given, changed, hgiven, hchanged, v, fields, hget, hfields, rfl⟩

/-- The operation `runDropAttributeOption` is orderly, and makes the change `Unsets` at the end of
the path. -/
theorem does_dropAttributeOption :
    Does Working.toValue Working.IsSound (runDropAttributeOption ps) w fun _ w' =>
      LocatedChange ps (Unsets ps) w w' := by
  refine does_locate fun base key r hb => ?_
  refine Does.mono (does_inAttribute hb (G := fun v v' => ∃ option fields,
    ps.nameOf "option" = .ok option ∧ HasOptions v fields ∧
      v' = withPart "options" (.record (Entries.remove option fields)) v) fun v hv => ?_) ?_
  · refine Does.bind (does_currentOptions hv) ?_
    rintro _ v ⟨⟨fields, rfl, hfields⟩, rfl⟩
    refine Does.bind (Change.does_lift Parameters.isOrderly_nameOf) ?_
    rintro option v ⟨hoption, rfl⟩
    rw [textEntries.remove]
    exact (does_writeOptions hv _).mono fun _ _ h => ⟨option, fields, hoption, hfields, h⟩
  · rintro - _ ⟨v, _, hget, ⟨option, fields, hoption, hfields, rfl⟩, rfl⟩
    exact ⟨option, hoption, v, fields, hget, hfields, rfl⟩

/-! ## Rules -/

/-- The rules of the collection that the parameters name are changed as `G` says; all other
collections stay as they are. -/
def RuledChange (ps : Parameters) (G : WorkingCollection → WorkingCollection → Prop)
    (w w' : Working) : Prop :=
  ∃ name c c', ps.nameOf "collection" = .ok name ∧ Entries.get? name w.collections = some c ∧
    G c c' ∧ w' = { w with collections := Entries.put name c' w.collections }

/-- A rule is put under a scope and an id, and both are made where they are missing. -/
def AddsRule (ps : Parameters) (c c' : WorkingCollection) : Prop :=
  ∃ scope id rule v, ps.nameOf "scope" = .ok scope ∧ ps.nameOf "id" = .ok id ∧
    ps.required "rule" = .ok rule ∧
      (Entries.get? scope (c.rules.getD [])).getD (.mapping []) = v ∧ v.isMapping = true ∧
        c' = { c with rules := some (Entries.put scope (withPart id rule v) (c.rules.getD [])) }

/-- A rule is taken away; a scope without rules goes with it, and so do rules without scopes. -/
def DropsRule (ps : Parameters) (c c' : WorkingCollection) : Prop :=
  ∃ scope id v left rules, ps.nameOf "scope" = .ok scope ∧ ps.nameOf "id" = .ok id ∧
    ((Entries.get? scope (c.rules.getD [])).getD .null).orElse (.mapping []) = v ∧
      v.isMapping = true ∧ v.discard id = .ok left ∧
        rules = (if left.isTruthy then Entries.put scope left (c.rules.getD [])
          else Entries.remove scope (c.rules.getD [])) ∧
          c' = { c with rules := if rules.isEmpty then none else some rules }

/-- A scope is made where there is none, and stays as it is otherwise. -/
theorem does_writeNewScope (scope : String) (fields : List (String × Value)) :
    Does Value.record (fun ps => (Entries.keys ps).Nodup) (.writeNew scope (.mapping [])) fields
      fun _ fields' =>
        Entries.get? scope fields' = some ((Entries.get? scope fields).getD (.mapping [])) ∧
          ∀ v, Entries.put scope v fields' = Entries.put scope v fields := by
  cases hget : Entries.get? scope fields with
  | none =>
    refine Does.mono (Change.does_writeNew_of_not_has Entries.nodup_keys_put
      Value.entries?_record ?_ Value.put_record) ?_
    · rw [Entries.has, textEntries.get?, hget]
      rfl
    · rintro - _ rfl
      exact ⟨Entries.get?_put_self, fun v => Entries.put_put (beq_self_eq_true scope)⟩
  | some v =>
    refine Does.mono (Change.does_writeNew_of_has Value.entries?_record ?_) ?_
    · rw [Entries.has, textEntries.get?, hget]
      rfl
    · rintro - _ rfl
      exact ⟨hget, fun _ => rfl⟩

/-- A rule is put into a scope, which has to be a mapping. The rule is asked for before the id, as
in the operation `add_rule`. -/
theorem does_writeRule (v : Value) :
    Does id (fun _ => True) (do
        if !(← get).isMapping then .fail .scopeNotMapping
        let rule ← ps.required "rule"
        .write (← ps.nameOf "id") rule) v fun _ v' =>
      ∃ id rule, ps.nameOf "id" = .ok id ∧ ps.required "rule" = .ok rule ∧ v.isMapping = true ∧
        v' = withPart id rule v := by
  refine Does.bind Change.does_get ?_
  rintro _ v ⟨rfl, rfl⟩
  refine Change.does_unless (by simp) fun hv => ?_
  have hmapping : v.isMapping = true := by simpa using hv
  refine Does.bind (Change.does_lift Parameters.isOrderly_required) ?_
  rintro rule v ⟨hrule, rfl⟩
  refine Does.bind (Change.does_lift Parameters.isOrderly_nameOf) ?_
  rintro id v ⟨hid, rfl⟩
  exact (Change.does_write (fun _ => trivial) (Value.put_of_isMapping hmapping _ _)).mono
    fun _ _ h => ⟨id, rule, hid, hrule, hmapping, h⟩

/-- The operation `runAddRule` is orderly, and makes the change `AddsRule`. -/
theorem does_addRule :
    Does Working.toValue Working.IsSound (runAddRule ps) w fun _ w' =>
      RuledChange ps (AddsRule ps) w w' := by
  refine Does.bind (Change.does_lift Parameters.isOrderly_nameOf) ?_
  rintro name w ⟨hname, rfl⟩
  refine Does.mono (Working.does_inCollection (P := fun c _ c' => AddsRule ps c c')
    fun c _ => ?_) ?_
  -- Inward: the collection, its rules, and the scope, which is made first if it is missing.
  · refine Does.mono (does_inRules (P := fun _ rules => ∃ scope id rule v,
      ps.nameOf "scope" = .ok scope ∧ ps.nameOf "id" = .ok id ∧ ps.required "rule" = .ok rule ∧
        (Entries.get? scope (c.rules.getD [])).getD (.mapping []) = v ∧ v.isMapping = true ∧
          rules = Entries.put scope (withPart id rule v) (c.rules.getD [])) ?_) ?_
    · refine Does.bind (Change.does_lift Parameters.isOrderly_nameOf) ?_
      rintro scope _ ⟨hscope, rfl⟩
      refine Does.bind (does_writeNewScope scope _) ?_
      rintro - fields ⟨hget, hput⟩
      refine Does.mono (Change.does_within
        (does_writeRule ((Entries.get? scope (c.rules.getD [])).getD (.mapping []))) ?_
        (fun _ => trivial) (fun v => Value.withPart_record)
        fun v hps _ => Entries.nodup_keys_put hps) ?_
      · rw [Value.item_record hget]
        rfl
      · rintro - _ ⟨_, -, ⟨id, rule, hid, hrule, hv, rfl⟩, rfl⟩
        exact ⟨scope, id, rule, _, hscope, hid, hrule, rfl, hv, hput _⟩
    · rintro - _ ⟨_, ⟨scope, id, rule, v, hscope, hid, hrule, hv, hmapping, rfl⟩, rfl⟩
      exact ⟨scope, id, rule, v, hscope, hid, hrule, hv, hmapping, rfl⟩
  · rintro - _ ⟨c, c', hget, hadds, rfl⟩
    exact ⟨name, c, c', hname, hget, hadds, rfl⟩

/-- A rule is taken away from a scope, and the scope with it if it was the last one. -/
theorem does_removeRule (scope : String) (fields : List (String × Value)) :
    Does Value.record (fun ps => (Entries.keys ps).Nodup) (removeRule ps scope) fields
      fun _ rules => ∃ id v left, ps.nameOf "id" = .ok id ∧
        ((Entries.get? scope fields).getD .null).orElse (.mapping []) = v ∧ v.isMapping = true ∧
          v.discard id = .ok left ∧
            rules = if left.isTruthy then Entries.put scope left fields
              else Entries.remove scope fields := by
  refine Does.bind (Change.does_look Value.get_record) ?_
  rintro _ fields ⟨rfl, rfl⟩
  refine Change.does_unless (by simp) fun hv => ?_
  have hmapping : (((Entries.get? scope fields).getD .null).orElse (.mapping [])).isMapping
      = true := by simpa using hv
  refine Does.bind (Change.does_lift Parameters.isOrderly_nameOf) ?_
  rintro id fields ⟨hid, rfl⟩
  obtain ⟨left, hleft⟩ := Value.exists_discard hmapping id
  refine Does.bind (Change.does_access hleft) ?_
  rintro _ fields ⟨rfl, rfl⟩
  -- A scope in which a rule is left is put back, another one is taken away.
  split
  · refine Does.mono (Change.does_write Entries.nodup_keys_put Value.put_record) ?_
    rintro - _ rfl
    exact ⟨id, _, _, hid, rfl, hmapping, hleft, by rw [if_pos ‹_›]⟩
  · refine Does.mono (Change.does_discard Entries.nodup_keys_remove Value.discard_record) ?_
    rintro - _ rfl
    exact ⟨id, _, _, hid, rfl, hmapping, hleft, by rw [if_neg ‹_›]⟩

/-- Rules without scopes are taken away from a collection, which then has none (`none`, and not the
empty mapping). -/
theorem does_dropEmptyRules (record : WorkingRecord) (rules : List (String × Value)) :
    Does WorkingCollection.toValue WorkingCollection.IsSound
      (do if !(← .look "rules").isTruthy then .discard "rules") ⟨record, some rules⟩
      fun _ c' => c' = ⟨record, if rules.isEmpty then none else some rules⟩ := by
  have hlook : (WorkingCollection.toValue ⟨record, some rules⟩).get "rules"
      = .ok (.record rules) := Value.get_record
  refine Does.bind (Change.does_look hlook) ?_
  rintro _ _ ⟨rfl, rfl⟩
  cases rules with
  | nil =>
    exact Change.does_discard (fun hc => ⟨hc.record, fun _ h => by cases h⟩) Value.discard_record
  | cons rule rules => exact (Change.does_pure ()).mono fun _ _ h => h.2

/-- The operation `runDropRule` is orderly, and makes the change `DropsRule`. -/
theorem does_dropRule :
    Does Working.toValue Working.IsSound (runDropRule ps) w fun _ w' =>
      RuledChange ps (DropsRule ps) w w' := by
  refine Does.bind (Change.does_lift Parameters.isOrderly_nameOf) ?_
  rintro name w ⟨hname, rfl⟩
  refine Does.mono (Working.does_inCollection (P := fun c _ c' => DropsRule ps c c')
    fun c _ => ?_) ?_
  · refine Does.bind (Change.does_lift Parameters.isOrderly_nameOf) ?_
    rintro scope c ⟨hscope, rfl⟩
    refine Does.bind (does_inRules (does_removeRule scope _)) ?_
    rintro - _ ⟨rules, ⟨id, v, left, hid, hv, hmapping, hleft, hrules⟩, rfl⟩
    exact (does_dropEmptyRules c.record rules).mono fun _ _ h =>
      ⟨scope, id, v, left, rules, hscope, hid, hv, hmapping, hleft, hrules, h⟩
  · rintro - _ ⟨c, c', hget, hdrops, rfl⟩
    exact ⟨name, c, c', hname, hget, hdrops, rfl⟩

/-! ## Collections -/

/-- The collection that the parameters describe, by its attributes, its optional keys and its rules,
as a step makes it. -/
structure Specifies (ps : Parameters) (c : WorkingCollection) : Prop where
  /-- The attributes. -/
  properties : Parameters.mappingOf "schema" (ps.optional "schema")
    = .ok (textEntries c.record.properties)
  /-- The optional keys. -/
  optional : Parameters.keysOf "optional" (ps.optional "optional") = .ok c.record.optional
  /-- The rules, if there are any. -/
  rules : Parameters.mappingOf "rules" (ps.optional "rules") = .ok (textEntries (c.rules.getD []))
  /-- Without rules there are none. -/
  isNone_rules : c.rules.isNone = (ps.optional "rules").isNull

/-- A new collection, as the parameters specify it (`Specifies`), is put at the end, under a name
that is not there yet. -/
def Creates (ps : Parameters) (w w' : Working) : Prop :=
  ∃ name c, ps.nameOf "name" = .ok name ∧ Entries.has name w.collections = false ∧
    Specifies ps c ∧ w' = { w with collections := Entries.put name c w.collections }

/-- A collection that is there is taken away, and all others stay. -/
def DropsCollection (ps : Parameters) (w w' : Working) : Prop :=
  ∃ name, ps.nameOf "name" = .ok name ∧ Entries.has name w.collections = true ∧
    w' = { w with collections := Entries.remove name w.collections }

variable {cs : List (String × WorkingCollection)} {c : WorkingCollection} {name : String}

/-- Writing a sound collection under its name puts it among the others. -/
theorem does_writeCollection (hc : c.IsSound) (hv : v = c.toValue) :
    Does WorkingCollection.allToValue WorkingCollection.AreSound (.write name v) cs fun _ cs' =>
      cs' = Entries.put name c cs := by
  subst hv
  refine Change.does_write (fun hcs => hcs.put hc) ?_
  unfold WorkingCollection.allToValue
  rw [Value.put_record, Entries.put_mapValues]

/-- The operation `runCreateCollection` is orderly, and makes the change `Creates`: the collection
is put together before it is put into the state. -/
theorem does_createCollection :
    Does Working.toValue Working.IsSound (runCreateCollection ps) w fun _ w' =>
      Creates ps w w' := by
  refine Does.bind (Change.does_lift Parameters.isOrderly_nameOf) ?_
  rintro name w ⟨hname, rfl⟩
  refine Does.mono (Working.does_inCollections (P := fun _ cs =>
    Entries.has name w.collections = false ∧ ∃ c, Specifies ps c ∧
      cs = Entries.put name c w.collections) ?_) ?_
  · refine Does.bind (Change.does_holds Value.contains_record) ?_
    rintro _ cs ⟨rfl, rfl⟩
    refine Change.does_unless (by simp) fun hnew => ?_
    refine Does.bind (Change.does_lift Parameters.isOrderly_mappingOf) ?_
    rintro _ cs ⟨hproperties, rfl⟩
    obtain ⟨properties, hdistinct, rfl⟩ := Parameters.exists_fields_of_mappingOf hproperties
    refine Does.bind (Change.does_lift Parameters.isOrderly_keysOf) ?_
    rintro optional cs ⟨hoptional, rfl⟩
    rw [Entries.has, Entries.get?_mapValues, Option.isSome_map] at hnew
    -- Absent rules are left out of the collection. Others have to be a mapping.
    cases hnull : (ps.optional "rules").isNull with
    | true =>
      have hrules : Parameters.mappingOf "rules" (ps.optional "rules") = .ok [] := by
        rw [Parameters.mappingOf, if_pos hnull]
      dsimp only
      rw [if_pos rfl]
      refine (does_writeCollection (c := ⟨⟨properties, optional⟩, none⟩)
        ⟨hdistinct, fun _ h => by cases h⟩ rfl).mono fun _ _ h => ⟨hnew, _, ?_, h⟩
      exact ⟨hproperties, hoptional, hrules, hnull.symm⟩
    | false =>
      dsimp only
      rw [if_neg Bool.false_ne_true]
      refine Does.bind (Change.does_lift Parameters.isOrderly_mappingOf) ?_
      rintro _ cs ⟨hrules, rfl⟩
      obtain ⟨rules, hscopes, rfl⟩ := Parameters.exists_fields_of_mappingOf hrules
      refine (does_writeCollection (c := ⟨⟨properties, optional⟩, some rules⟩)
        ⟨hdistinct, fun _ h => by cases h; exact hscopes⟩ rfl).mono fun _ _ h => ⟨hnew, _, ?_, h⟩
      exact ⟨hproperties, hoptional, hrules, hnull.symm⟩
  · rintro - _ ⟨cs, -, ⟨hnew, c, hc, rfl⟩, rfl⟩
    exact ⟨name, c, hname, hnew, hc, rfl⟩

/-- The operation `runDropCollection` is orderly, and makes the change `DropsCollection`. -/
theorem does_dropCollection :
    Does Working.toValue Working.IsSound (runDropCollection ps) w fun _ w' =>
      DropsCollection ps w w' := by
  refine Does.bind (Change.does_lift Parameters.isOrderly_nameOf) ?_
  rintro name w ⟨hname, rfl⟩
  refine Does.mono (Working.does_inCollections (P := fun _ cs =>
    Entries.has name w.collections = true ∧ cs = Entries.remove name w.collections) ?_) ?_
  · refine Does.bind Change.does_get ?_
    rintro _ cs ⟨rfl, rfl⟩
    rw [Working.collectionIn_allToValue]
    -- The collection is looked up before it is taken away, so a missing one is refused.
    cases hget : Entries.get? name w.collections with
    | none =>
      refine Does.bind (Change.does_lift (by exact Refusal.noConfusion)) ?_
      rintro _ _ ⟨h, -⟩
      cases h
    | some c =>
      have hhas := has_of_get? hget
      have hhas' : Entries.has name
          (Entries.mapValues WorkingCollection.toValue w.collections) = true := by
        rw [Entries.has, Entries.get?_mapValues, hget]
        rfl
      refine Does.bind (Change.does_lift trivial) ?_
      rintro _ cs ⟨-, rfl⟩
      refine (Change.does_erase (fun hcs => hcs.remove) ?_).mono fun _ _ h => ⟨hhas, h⟩
      unfold WorkingCollection.allToValue
      rw [Value.delete_record hhas', Entries.remove_mapValues]
  · rintro - _ ⟨cs, -, ⟨hhas, rfl⟩, rfl⟩
    exact ⟨name, hname, hhas, rfl⟩

/-! ## All operations -/

/-- The working states to which an operation with its parameters leads from a given one, where it
succeeds. -/
def Leads (ps : Parameters) (w w' : Working) : Operation → Prop
  | createCollection => Creates ps w w'
  | dropCollection => DropsCollection ps w w'
  | addAttribute => LocatedChange ps (Adds ps) w w'
  | dropAttribute => LocatedChange ps Drops w w'
  | alterAttributeOption => LocatedChange ps (Alters ps) w w'
  | dropAttributeOption => LocatedChange ps (Unsets ps) w w'
  | setAttributeOptional => LocatedChange ps (Marks ps) w w'
  | addRule => RuledChange ps (AddsRule ps) w w'
  | dropRule => RuledChange ps (DropsRule ps) w w'

/-- Every operation is orderly on every sound state, and leads where `Leads` says. There is one case
for each of the nine. -/
theorem does_run (op : Operation) :
    Does Working.toValue Working.IsSound (op.run ps) w fun _ w' => op.Leads ps w w' := by
  cases op with
  | createCollection => exact does_createCollection
  | dropCollection => exact does_dropCollection
  | addAttribute => exact does_addAttribute
  | dropAttribute => exact does_dropAttribute
  | alterAttributeOption => exact does_alterAttributeOption
  | dropAttributeOption => exact does_dropAttributeOption
  | setAttributeOptional => exact does_setAttributeOptional
  | addRule => exact does_addRule
  | dropRule => exact does_dropRule

/-! ## The records of all collections -/

/-- The records of all collections have the property `P`. -/
def EachRecord (P : WorkingRecord → Prop) (w : Working) : Prop := ∀ c ∈ w.collections, P c.2.record

/-- The change that an operation makes to the record at the end of a path, if it makes one. -/
def Edits (ps : Parameters) : Operation → String → WorkingRecord → WorkingRecord → Prop
  | addAttribute => Adds ps
  | dropAttribute => Drops
  | alterAttributeOption => Alters ps
  | dropAttributeOption => Unsets ps
  | setAttributeOptional => Marks ps
  | _ => fun _ _ _ => False

variable {P : WorkingRecord → Prop} {F : String → WorkingRecord → WorkingRecord → Prop}
  {w' : Working}

/-- A collection whose record has the property may be put among others that have it. -/
theorem EachRecord.put (hw : EachRecord P w) (hc : P c.record) :
    EachRecord P { w with collections := Entries.put name c w.collections } := by
  intro d hd
  rcases Entries.mem_put hd with rfl | hd
  · exact hc
  · exact hw d hd

/-- All records of a state keep a property that a change along a path keeps, since the other
collections stay. -/
theorem LocatedChange.eachRecord
    (hF : ∀ path r r', ChangedAt F path r r' → P r → P r') (h : LocatedChange ps F w w')
    (hw : EachRecord P w) : EachRecord P w' := by
  obtain ⟨name, path, c, r, -, -, hget, hchanged, rfl⟩ := h
  exact hw.put (hF path c.record r hchanged (hw _ (Entries.mem_of_get? hget)))

/-- A change of rules leaves the records alone, so that every property of them is kept. -/
theorem RuledChange.eachRecord {G : WorkingCollection → WorkingCollection → Prop}
    (hG : ∀ c c', G c c' → c'.record = c.record) (h : RuledChange ps G w w')
    (hw : EachRecord P w) : EachRecord P w' := by
  obtain ⟨name, c, c', -, hget, hchanged, rfl⟩ := h
  refine hw.put ?_
  rw [hG c c' hchanged]
  exact hw _ (Entries.mem_of_get? hget)

/-- All records keep a property where an operation succeeds, if a new collection has it and changes
along a path keep it. -/
theorem Leads.eachRecord {op : Operation}
    (hnew : op = createCollection → ∀ c, Specifies ps c → P c.record)
    (hedits : ∀ path r r', ChangedAt (op.Edits ps) path r r' → P r → P r')
    (h : op.Leads ps w w') (hw : EachRecord P w) : EachRecord P w' := by
  -- A new collection brings a new record, the edits on a path may change one, and rules touch none.
  cases op with
  | createCollection =>
    obtain ⟨name, c, -, -, hc, rfl⟩ := h
    exact hw.put (hnew rfl c hc)
  | dropCollection =>
    obtain ⟨name, -, -, rfl⟩ := h
    exact fun c hc => hw c (Entries.mem_of_mem_remove hc)
  | addAttribute => exact LocatedChange.eachRecord hedits h hw
  | dropAttribute => exact LocatedChange.eachRecord hedits h hw
  | alterAttributeOption => exact LocatedChange.eachRecord hedits h hw
  | dropAttributeOption => exact LocatedChange.eachRecord hedits h hw
  | setAttributeOptional => exact LocatedChange.eachRecord hedits h hw
  | addRule =>
    refine RuledChange.eachRecord ?_ h hw
    rintro c _ ⟨_, _, _, _, _, _, _, _, _, rfl⟩
    rfl
  | dropRule =>
    refine RuledChange.eachRecord ?_ h hw
    rintro c _ ⟨_, _, _, _, _, _, _, _, _, _, _, rfl⟩
    rfl

end Operation

end SchemaForge
