import Mathlib
import SchemaForge.Proofs.Migration.Rereading
import SchemaForge.Proofs.Migration.Safety
import SchemaForge.Proofs.Migration.Settings

/-!
# What operations do to schemas

For each operation, how the schema after it differs from the one before (`Operation.Changes`), as in
the table of section 6.1 of the specification. The schemas are those that are read of the two
working states, and the states are compared first (`Operation.does_run`); what an operation does to
a working state on the way, such as bringing records into their normal form, is not seen in the
schema (`Operation.ChangedAt.editedAt`).

The states have text keys and no values that occur within themselves. The text of such a value may
be an optional key, and this text is another one once the value has changed
(`exists_runStep_not_changes`).
-/

namespace SchemaForge

open Change (withPart)

namespace Operation

/-! ## Changes of trees -/

/-- The tree at the end of a path is changed as `G` says of its last key. The way there leads
through records, and everything beside it stays. -/
inductive EditedAt (G : String → AttributeTree → AttributeTree → Prop) :
    List String → AttributeTree → AttributeTree → Prop
  /-- The tree at hand is at the end. -/
  | here {key : String} {t t' : AttributeTree} (h : G key t t') : EditedAt G [key] t t'
  /-- The path leads on to a record under a key. -/
  | further {key next : String} {rest : List String} {t n n' : AttributeTree}
      (hget : Entries.get? key t.properties = some n.toRecord)
      (h : EditedAt G (next :: rest) n n') :
      EditedAt G (key :: next :: rest) t
        { t with properties := Entries.put key n'.toRecord t.properties }

/-- A new attribute at the end of a tree, read of a copy of the mapping that the parameters give. It
is optional exactly if they say so. -/
def AddsAttribute (ps : Parameters) (key : String) (t t' : AttributeTree) : Prop :=
  Entries.has key t.properties = false ∧ ∃ added entries a, ps.required "attribute" = .ok added ∧
    added.entries? = some entries ∧ Attribute.ofValue (some key) (.mapping entries) = .ok a ∧
      t' = ⟨t.properties ++ [(key, a)],
        withOptional key (ps.optional "optional").isTruthy t.optional⟩

/-- An attribute less in a tree, and its key is not optional any more. -/
def DropsAttribute (key : String) (t t' : AttributeTree) : Prop :=
  Entries.has key t.properties = true ∧
    t' = ⟨Entries.remove key t.properties, withOptional key false t.optional⟩

/-- An attribute with the settings that the parameters name. Its other settings stay, and a record
or a relation, which has none, stays as it is. -/
def AltersOptions (ps : Parameters) (key : String) (t t' : AttributeTree) : Prop :=
  ∃ given changed a a', ps.required "options" = .ok given ∧
    Parameters.mappingOf "options" given = .ok (textEntries changed) ∧
      Entries.get? key t.properties = some a ∧ a.WithOptions (Options.Altered changed) a' ∧
        t' = { t with properties := Entries.put key a' t.properties }

/-- The attribute under the key loses the setting that the parameter `option` names, if it has
settings (`Attribute.WithOptions`), and nothing else changes. -/
def UnsetsOption (ps : Parameters) (key : String) (t t' : AttributeTree) : Prop :=
  ∃ option a a', ps.nameOf "option" = .ok option ∧ Entries.get? key t.properties = some a ∧
    a.WithOptions (Options.Unset option) a' ∧
      t' = { t with properties := Entries.put key a' t.properties }

/-- An attribute that is optional exactly if the parameters say so; nothing else changes. -/
def SetsOptional (ps : Parameters) (key : String) (t t' : AttributeTree) : Prop :=
  Entries.has key t.properties = true ∧ ∃ flag, ps.required "optional" = .ok flag ∧
    t' = { t with optional := withOptional key flag.isTruthy t.optional }

/-! ## Changes of rules -/

/-- The rules in a value, by scope. The absent value stands for no rules, and every other value is
the mapping of them. -/
def AreRules (v : Value) (rules : List (String × Value)) : Prop :=
  v = .null ∧ rules = [] ∨ v = .record rules

/-- A rule stands under a scope and an id, which may be new or may have had another rule. -/
def PutsRule (ps : Parameters) (v v' : Value) : Prop :=
  ∃ scope id rule rules entries, ps.nameOf "scope" = .ok scope ∧ ps.nameOf "id" = .ok id ∧
    ps.required "rule" = .ok rule ∧ AreRules v rules ∧
      (Entries.get? scope rules).getD (.record []) = .record entries ∧
        v' = .record (Entries.put scope (.record (Entries.put id rule entries)) rules)

/-- A rule less. A scope that holds no rules goes with it, and so do rules without scopes. -/
def RemovesRule (ps : Parameters) (v v' : Value) : Prop :=
  ∃ scope id rules entries left, ps.nameOf "scope" = .ok scope ∧ ps.nameOf "id" = .ok id ∧
    AreRules v rules ∧
      ((Entries.get? scope rules).getD .null).orElse (.record []) = .record entries ∧
        left = (if (Entries.remove id entries).isEmpty then Entries.remove scope rules
          else Entries.put scope (.record (Entries.remove id entries)) rules) ∧
          v' = if left.isEmpty then .null else .record left

/-! ## Changes of schemas -/

/-- The collection that the parameters give: its tree is read of the attributes and the optional
keys, and its rules are carried. Keys that are not texts are taken by their texts first. -/
structure GivesCollection (ps : Parameters) (d : Collection) : Prop where
  /-- The tree. -/
  schema : ∃ properties, Parameters.mappingOf "schema" (ps.optional "schema") = .ok properties ∧
    AttributeTree.ofValues (.mapping properties) (ps.optional "optional") = .ok d.schema
  /-- The tree, where all keys are texts. -/
  schema_of_isKeyed : (ps.optional "schema").IsKeyed →
    AttributeTree.ofValues (ps.optional "schema") (ps.optional "optional") = .ok d.schema
  /-- The rules. -/
  rules : ∃ rules, Parameters.mappingOf "rules" (ps.optional "rules") = .ok rules ∧
    d.rules = if (ps.optional "rules").isNull then .null else .mapping rules
  /-- The rules, where all keys are texts. -/
  rules_of_isKeyed : (ps.optional "rules").IsKeyed → d.rules = ps.optional "rules"

/-- The tree that the parameters lead to is changed as `G` says; all other collections stay, and so
do the rules of this one. -/
def EditsTree (ps : Parameters) (G : String → AttributeTree → AttributeTree → Prop)
    (s s' : Schema) : Prop :=
  ∃ name path d t, ps.nameOf "collection" = .ok name ∧ ps.path = .ok path ∧
    Entries.get? name s.collections = some d ∧ EditedAt G path d.schema t ∧
      s' = { s with collections := Entries.put name { d with schema := t } s.collections }

/-- The rules of the collection that the parameters name are changed as `G` says; all else stays. -/
def EditsRules (ps : Parameters) (G : Value → Value → Prop) (s s' : Schema) : Prop :=
  ∃ name d rules, ps.nameOf "collection" = .ok name ∧ Entries.get? name s.collections = some d ∧
    G d.rules rules ∧
      s' = { s with collections := Entries.put name { d with rules } s.collections }

/-- How the schema after an operation differs from the one before, as in the table of section 6.1 of
the specification. -/
def Changes (ps : Parameters) (s s' : Schema) : Operation → Prop
  | createCollection => ∃ name d, ps.nameOf "name" = .ok name ∧
    Entries.has name s.collections = false ∧ GivesCollection ps d ∧
      s' = { s with collections := s.collections ++ [(name, d)] }
  | dropCollection => ∃ name, ps.nameOf "name" = .ok name ∧
    Entries.has name s.collections = true ∧
      s' = { s with collections := Entries.remove name s.collections }
  | addAttribute => EditsTree ps (AddsAttribute ps) s s'
  | dropAttribute => EditsTree ps DropsAttribute s s'
  | alterAttributeOption => EditsTree ps (AltersOptions ps) s s'
  | dropAttributeOption => EditsTree ps (UnsetsOption ps) s s'
  | setAttributeOptional => EditsTree ps (SetsOptional ps) s s'
  | addRule => EditsRules ps (PutsRule ps) s s'
  | dropRule => EditsRules ps (RemovesRule ps) s s'

/-! ## Trees of working states -/

/-- Every change `F` of a record is seen as a change `G` of the tree that is read of it, if the
attributes have text keys. -/
def IsSeenAs (F : String → WorkingRecord → WorkingRecord → Prop)
    (G : String → AttributeTree → AttributeTree → Prop) : Prop :=
  ∀ key r r' t t', (∀ p ∈ r.properties, p.2.IsKeyed) → F key r r' → Reads r t → Reads r' t' →
    G key t t'

variable {F : String → WorkingRecord → WorkingRecord → Prop}
  {G : String → AttributeTree → AttributeTree → Prop} {ps : Parameters} {path : List String}

/-- A change at the end of a path is seen as one at the end of that path, and the records on the way
are read as before, although they are brought into their normal form. -/
theorem ChangedAt.editedAt (hFG : IsSeenAs F G) {r r' : WorkingRecord} {t t' : AttributeTree}
    (hr : ∀ p ∈ r.properties, p.2.IsKeyed) (h : ChangedAt F path r r') (ht : Reads r t)
    (ht' : Reads r' t') : EditedAt G path t t' := by
  -- The induction is on the path. The trees are those of the records at each step, so they are
  -- general.
  induction h generalizing t t' with
  | here h => exact .here (hFG _ _ _ _ _ hr h ht ht')
  | @further key next rest r n n' v es hget hes htype hn hn' _ ih =>
    have hv : v.IsKeyed := hr _ (Entries.mem_of_get? hget)
    obtain ⟨a, ha, hva⟩ := ht.properties.exists_get? hget
    obtain ⟨m, rfl, hm⟩ := reads_of_normalForm hv hes htype hn hva
    obtain ⟨a', hva', hput⟩ := Entries.Related.of_put isReadAs_unique ht.properties ht'.properties
    obtain ⟨m', rfl, hm'⟩ := reads_of_laidOver hv hes htype hn' hva'
    rw [AttributeTree.eq_mk hput (ht'.optional.trans ht.optional.symm)]
    exact .further ha (ih (isKeyed_of_normalForm hv hes hn) hm hm')

/-! ## Optional keys -/

/-- Among selected keys the repeated ones are those that are repeated among all keys. -/
theorem eraseDups_filter (p : String → Bool) (keys : List String) :
    (keys.filter p).eraseDups = keys.eraseDups.filter p := by
  match keys with
  | [] => rfl
  | k :: keys =>
    have hlt : (keys.filter fun l => !l == k).length < keys.length + 1 :=
      Nat.lt_succ_of_le (List.length_filter_le _ keys)
    -- `eraseDups` goes on with what differs from the first key, so the lemma is used for that list
    -- and not for the tail.
    have hrest := eraseDups_filter p (keys.filter fun l => !l == k)
    rw [List.filter_filter] at hrest
    rw [List.eraseDups_cons, List.filter_cons, List.filter_cons]
    cases hp : p k with
    | true =>
      rw [if_pos rfl, if_pos rfl, List.eraseDups_cons, List.filter_filter, ← hrest]
      simp only [Bool.and_comm]
    | false =>
      rw [if_neg Bool.false_ne_true, if_neg Bool.false_ne_true, ← hrest]
      refine congrArg List.eraseDups (List.filter_congr fun l _ => ?_)
      cases hl : l == k with
      | true => rw [eq_of_beq hl, hp]; rfl
      | false => rw [Bool.not_false, Bool.and_true]
termination_by keys.length

/-- Making a key optional or not commutes with leaving out repeated keys, so that it is the same on
records and on trees. -/
theorem eraseDups_withOptional (key : String) (optional : Bool) (keys : List String) :
    (withOptional key optional keys).eraseDups = withOptional key optional keys.eraseDups := by
  unfold withOptional
  cases optional with
  | true =>
    have hkey : [key].removeAll (keys.filter (· ≠ key)) = [key] := by
      simp [List.removeAll]
    rw [if_pos rfl, if_pos rfl, List.eraseDups_append, hkey, eraseDups_filter]
    rfl
  | false => rw [if_neg Bool.false_ne_true, if_neg Bool.false_ne_true, eraseDups_filter]

/-! ## Changes of records and of their trees -/

/-- The optional keys of a tree change as those of its record when a key is made optional or not. -/
theorem optional_of_reads {key : String} {optional : Bool} {r : WorkingRecord}
    {properties : List (String × Value)} {t t' : AttributeTree} (ht : Reads r t)
    (ht' : Reads ⟨properties, withOptional key optional r.optional⟩ t') :
    t'.optional = withOptional key optional t.optional := by
  rw [ht'.optional, ht.optional]
  exact eraseDups_withOptional key optional r.optional

/-- The change `Adds` of a record is seen as `AddsAttribute` in its tree. -/
theorem isSeenAs_adds : IsSeenAs (Adds ps) (AddsAttribute ps) := by
  rintro key r _ t t' - ⟨hnew, added, entries, hadded, hentries, rfl⟩ ht ht'
  obtain ⟨a, ha, hput⟩ := Entries.Related.of_put isReadAs_unique ht.properties ht'.properties
  rw [ht.properties.has_eq] at hnew
  refine ⟨hnew, added, entries, a, hadded, hentries, ha, ?_⟩
  rw [AttributeTree.eq_mk hput (optional_of_reads ht ht'), Entries.put_of_has_eq_false hnew]

/-- The change `Drops` of a record is seen as `DropsAttribute` in its tree. -/
theorem isSeenAs_drops : IsSeenAs Drops DropsAttribute := by
  rintro key r _ t t' - ⟨hhas, rfl⟩ ht ht'
  rw [ht.properties.has_eq] at hhas
  exact ⟨hhas, AttributeTree.eq_mk (Entries.Related.of_remove isReadAs_unique ht.properties
    ht'.properties) (optional_of_reads ht ht')⟩

/-- The change `Marks` of a record is seen as `SetsOptional` in its tree. -/
theorem isSeenAs_marks : IsSeenAs (Marks ps) (SetsOptional ps) := by
  rintro key r _ t t' - ⟨hhas, flag, hflag, rfl⟩ ht ht'
  rw [ht.properties.has_eq] at hhas
  exact ⟨hhas, flag, hflag, AttributeTree.eq_mk (Entries.Related.unique isReadAs_unique
    ht'.properties ht.properties) (optional_of_reads ht ht')⟩

/-- An attribute of a record with other settings is read as the attribute of before with other
settings. -/
theorem exists_withOptions_of_reads {key : String} {r : WorkingRecord} {v : Value}
    {fields new : List (String × Value)} {t t' : AttributeTree}
    (hr : ∀ p ∈ r.properties, p.2.IsKeyed) (hget : Entries.get? key r.properties = some v)
    (hfields : HasOptions v fields) (ht : Reads r t)
    (ht' : Reads { r with
      properties := Entries.put key (withPart "options" (.record new) v) r.properties } t') :
    ∃ a a', Entries.get? key t.properties = some a ∧
      a.WithOptions (fun o o' => o.IsReadOf fields ∧ o'.IsReadOf new) a' ∧
        t' = { t with properties := Entries.put key a' t.properties } := by
  obtain ⟨a, ha, hva⟩ := ht.properties.exists_get? hget
  obtain ⟨a', hva', hput⟩ := Entries.Related.of_put isReadAs_unique ht.properties ht'.properties
  have hv : v.IsKeyed := hr _ (Entries.mem_of_get? hget)
  exact ⟨a, a', ha, withOptions_of_ofValue hv hfields hva hva',
    AttributeTree.eq_mk hput (ht'.optional.trans ht.optional.symm)⟩

/-- The change `Alters` of a record is seen as `AltersOptions` in its tree. -/
theorem isSeenAs_alters : IsSeenAs (Alters ps) (AltersOptions ps) := by
  rintro key r _ t t' hr ⟨given, changed, hgiven, hchanged, v, fields, hget, hfields, rfl⟩ ht ht'
  obtain ⟨a, a', ha, hoptions, rfl⟩ := exists_withOptions_of_reads hr hget hfields ht ht'
  obtain ⟨fs, hdistinct, heq⟩ := Parameters.exists_fields_of_mappingOf hchanged
  rw [← textEntries.inj heq] at hdistinct
  exact ⟨given, changed, a, a', hgiven, hchanged, ha,
    hoptions.mono fun o o' h => h.1.altered hdistinct h.2, rfl⟩

/-- The change `Unsets` of a record is seen as `UnsetsOption` in its tree. -/
theorem isSeenAs_unsets : IsSeenAs (Unsets ps) (UnsetsOption ps) := by
  rintro key r _ t t' hr ⟨option, hoption, v, fields, hget, hfields, rfl⟩ ht ht'
  obtain ⟨a, a', ha, hoptions, rfl⟩ := exists_withOptions_of_reads hr hget hfields ht ht'
  obtain ⟨o, -, hmapping⟩ := hfields
  obtain ⟨fs, hdistinct, heq⟩ := Parameters.exists_fields_of_mappingOf hmapping
  rw [← textEntries.inj heq] at hdistinct
  exact ⟨option, a, a', hoption, ha, hoptions.mono fun o o' h => h.1.unset hdistinct h.2, rfl⟩

/-! ## Changes of states and of their schemas -/

variable {w w' : Working} {s s' : Schema}

/-- All collections of a state have distinct texts as keys, and no knots. -/
def IsKeyedWorking (w : Working) : Prop :=
  ∀ c ∈ w.collections, c.2.toValue.IsKeyed

/-- If the value of a collection `IsKeyed`, so are the values of its attributes. -/
theorem isKeyed_properties {c : WorkingCollection} (h : c.toValue.IsKeyed) :
    ∀ p ∈ c.record.properties, p.2.IsKeyed := by
  have hrecord : c.record.toValue.IsKeyed :=
    Value.isKeyed_of_record h ("schema", c.record.toValue) List.mem_cons_self
  have hproperties : (Value.record c.record.properties).IsKeyed :=
    Value.isKeyed_of_record hrecord ("properties", .record c.record.properties)
      (List.mem_cons_of_mem _ List.mem_cons_self)
  exact Value.isKeyed_of_record hproperties

/-- If the value of a collection `IsKeyed`, so are its rules under every scope. -/
theorem isKeyed_rules {c : WorkingCollection} (h : c.toValue.IsKeyed) :
    ∀ r ∈ c.rules.getD [], r.2.IsKeyed := by
  obtain ⟨record, rules⟩ := c
  cases rules with
  | none => exact fun _ h => absurd h List.not_mem_nil
  | some rules =>
    have hrules : (Value.record rules).IsKeyed :=
      Value.isKeyed_of_record h ("rules", .record rules)
        (List.mem_cons_of_mem _ List.mem_cons_self)
    exact Value.isKeyed_of_record hrules

/-- If the value of a state `IsKeyed`, so are all attributes and rules in it, which is what the
proofs about parts of the state ask for. -/
theorem isKeyedWorking (h : w.toValue.IsKeyed) : IsKeyedWorking w := by
  intro c hc
  have hcollections : (WorkingCollection.allToValue w.collections).IsKeyed :=
    Value.isKeyed_of_record h ("collections", WorkingCollection.allToValue w.collections)
      (List.mem_cons_of_mem _ List.mem_cons_self)
  exact Value.isKeyed_of_record hcollections (c.1, c.2.toValue) (List.mem_map.mpr ⟨c, hc, rfl⟩)

/-- A `Schema` is known by its version and its collections. -/
theorem schema_eq_mk {version : Int} {collections : List (String × Collection)}
    (hversion : s.version = version) (hcollections : s.collections = collections) :
    s = ⟨version, collections⟩ := by
  obtain ⟨v, cs⟩ := s
  cases hversion
  cases hcollections
  rfl

/-- A `Collection` is known by its tree of attributes and its rules. -/
theorem collection_eq_mk {d : Collection} {schema : AttributeTree} {rules : Value}
    (hschema : d.schema = schema) (hrules : d.rules = rules) : d = ⟨schema, rules⟩ := by
  obtain ⟨t, v⟩ := d
  cases hschema
  cases hrules
  rfl

/-- A change of the record that the parameters lead to is seen as one of the tree that they lead
to. -/
theorem editsTree_of_locatedChange (hFG : IsSeenAs F G) (hkeyed : IsKeyedWorking w)
    (hw : w.IsSound) (hw' : w'.IsSound) (h : LocatedChange ps F w w') (hs : w.Reads s)
    (hs' : w'.Reads s') : EditsTree ps G s s' := by
  obtain ⟨name, path, c, r, hname, hpath, hget, hchanged, rfl⟩ := h
  obtain ⟨d, hd, hread⟩ := hs.collections.exists_get? hget
  obtain ⟨d', hread', hput⟩ :=
    Entries.Related.of_put isReadAsCollection_unique hs.collections hs'.collections
  have hmem := Entries.mem_of_get? hget
  have hmem' : (name, { c with record := r }) ∈ Entries.put name { c with record := r }
      w.collections := Entries.mem_of_get? Entries.get?_put_self
  -- The edit of the record is seen as one of the tree, and nothing else in the schema may differ.
  have hedited := hchanged.editedAt hFG (isKeyed_properties (hkeyed _ hmem))
    (hread.reads (hw.all _ hmem)) (hread'.reads (hw'.all _ hmem'))
  have hd' : d' = { d with schema := d'.schema } := collection_eq_mk rfl
    (hread'.2.trans hread.2.symm)
  refine ⟨name, path, d, d'.schema, hname, hpath, hd, hedited, ?_⟩
  rw [← hd']
  exact schema_eq_mk (hs'.version.trans hs.version.symm) hput

/-- A change of the rules of a collection of the state is seen as one of the rules in the schema. -/
theorem editsRules_of_ruledChange {F : WorkingCollection → WorkingCollection → Prop}
    {G : Value → Value → Prop}
    (hFG : ∀ c c', c.toValue.IsKeyed → F c c' →
      c'.record = c.record ∧ G c.rulesValue c'.rulesValue)
    (hkeyed : IsKeyedWorking w) (h : RuledChange ps F w w') (hs : w.Reads s)
    (hs' : w'.Reads s') : EditsRules ps G s s' := by
  obtain ⟨name, c, c', hname, hget, hF, rfl⟩ := h
  obtain ⟨d, hd, hread⟩ := hs.collections.exists_get? hget
  obtain ⟨d', hread', hput⟩ :=
    Entries.Related.of_put isReadAsCollection_unique hs.collections hs'.collections
  obtain ⟨hrecord, hG⟩ := hFG c c' (hkeyed _ (Entries.mem_of_get? hget)) hF
  -- The record is the same one before and after, and so is the tree that is read of it.
  have hschema : d'.schema = d.schema := by
    have h := hread'.1
    rw [hrecord, hread.1] at h
    exact (Except.ok.inj h).symm
  have hd' : d' = { d with rules := d'.rules } := collection_eq_mk hschema rfl
  rw [← hread.2, ← hread'.2] at hG
  refine ⟨name, d, d'.rules, hname, hd, hG, ?_⟩
  rw [← hd']
  exact schema_eq_mk (hs'.version.trans hs.version.symm) hput

/-! ## Rules -/

/-- The rules that a schema carries of a collection are those of its scopes, and none where it has
no rules. -/
theorem areRules_rulesValue (c : WorkingCollection) :
    AreRules c.rulesValue (c.rules.getD []) := by
  obtain ⟨record, rules⟩ := c
  cases rules with
  | none => exact .inl ⟨rfl, rfl⟩
  | some rules => exact .inr rfl

/-- The change `AddsRule` of a collection with text keys is seen as `PutsRule` of its rules. -/
theorem putsRule_of_addsRule {c c' : WorkingCollection} (hc : c.toValue.IsKeyed)
    (h : AddsRule ps c c') : c'.record = c.record ∧ PutsRule ps c.rulesValue c'.rulesValue := by
  obtain ⟨scope, id, rule, v, hscope, hid, hrule, hv, hmapping, rfl⟩ := h
  have hkeyed : v.IsKeyed := by
    rw [← hv]
    cases hget : Entries.get? scope (c.rules.getD []) with
    | none => exact Value.isKeyed_mapping_nil
    | some x => exact isKeyed_rules hc _ (Entries.mem_of_get? hget)
  obtain ⟨entries, rfl⟩ := hkeyed.exists_record hmapping
  refine ⟨rfl, scope, id, rule, c.rules.getD [], entries, hscope, hid, hrule,
    areRules_rulesValue c, hv, ?_⟩
  rw [Value.withPart_record]
  rfl

/-- The change `DropsRule` of a collection with text keys is seen as `RemovesRule` of its rules. -/
theorem removesRule_of_dropsRule {c c' : WorkingCollection} (hc : c.toValue.IsKeyed)
    (h : DropsRule ps c c') :
    c'.record = c.record ∧ RemovesRule ps c.rulesValue c'.rulesValue := by
  obtain ⟨scope, id, v, left, rules, hscope, hid, hv, hmapping, hleft, hrules, rfl⟩ := h
  -- The rules of the scope are a mapping with text keys, or the empty one if there is no such
  -- scope.
  have hkeyed : v.IsKeyed := by
    rw [← hv, Value.orElse]
    split
    · exact Value.isKeyed_getD (isKeyed_rules hc) scope
    · exact Value.isKeyed_mapping_nil
  obtain ⟨entries, rfl⟩ := hkeyed.exists_record hmapping
  rw [Value.discard_record] at hleft
  obtain rfl := Except.ok.inj hleft
  rw [Value.isTruthy_record] at hrules
  refine ⟨rfl, scope, id, c.rules.getD [], entries, rules, hscope, hid, areRules_rulesValue c, hv,
    ?_, ?_⟩
  · rw [hrules]
    cases (Entries.remove id entries).isEmpty <;> rfl
  · unfold WorkingCollection.rulesValue
    cases rules.isEmpty <;> rfl

/-! ## Collections -/

/-- The collection that the parameters specify is read as the one that they give. -/
theorem givesCollection_of_specifies {c : WorkingCollection} {d : Collection}
    (h : Specifies ps c) (hd : IsReadAsCollection c d) : GivesCollection ps d := by
  obtain ⟨hproperties, hoptional, hrules, hnone⟩ := h
  obtain ⟨htree, hdrules⟩ := hd
  have hlist : optionalKeys (.list (c.record.optional.map .str))
      = optionalKeys (ps.optional "optional") := by
    rw [optionalKeys_texts, Parameters.optionalKeys_of_keysOf hoptional]
  have htree' : ∀ v, propertiesOfPart [] 0 v = propertiesOfPart [] 0 (.record c.record.properties) →
      AttributeTree.ofValues v (ps.optional "optional") = .ok d.schema := by
    intro v hv
    rw [← htree, AttributeTree.ofValues, AttributeTree.ofValues, hv, hlist]
  refine ⟨⟨_, hproperties, htree' _ rfl⟩, fun hkeyed => htree' _ ?_, ⟨_, hrules, ?_⟩,
    fun hkeyed => ?_⟩
  -- Without the parameter there are no attributes, as in the absent value.
  · rcases Parameters.mappingOf_of_isKeyed hkeyed hproperties with
      ⟨hnull, hempty⟩ | ⟨fields, hfields, heq, -, -⟩
    · rw [hnull, propertiesOfPart_null, textEntries.eq_nil hempty, propertiesOfPart_record_nil]
    · rw [hfields, textEntries.inj heq]
  · rw [hdrules, ← hnone]
    obtain ⟨record, rules⟩ := c
    cases rules <;> rfl
  · rw [hdrules, WorkingCollection.rulesValue]
    rcases Parameters.mappingOf_of_isKeyed hkeyed hrules with
      ⟨hnull, -⟩ | ⟨fields, hfields, heq, -, -⟩
    · rw [hnull] at hnone ⊢
      rw [Option.isNone_iff_eq_none.mp hnone]
      rfl
    · rw [hfields] at hnone ⊢
      cases hsome : c.rules with
      | none =>
        rw [hsome] at hnone
        cases hnone
      | some rules =>
        rw [hsome] at heq
        rw [← textEntries.inj heq]
        rfl

/-- What an operation does to a working state (`Leads`) is seen in the schemas as what the table
says (`Changes`). There is one case for each of the nine. -/
theorem changes_of_leads {op : Operation} (hkeyed : w.toValue.IsKeyed) (hw : w.IsSound)
    (hw' : w'.IsSound) (h : op.Leads ps w w') (hs : w.Reads s) (hs' : w'.Reads s') :
    op.Changes ps s s' := by
  have hkeyed' := isKeyedWorking hkeyed
  -- Five operations edit a record on a path, two edit rules, and two add or remove a collection.
  cases op with
  | createCollection =>
    obtain ⟨name, c, hname, hnew, hc, rfl⟩ := h
    obtain ⟨d, hd, hput⟩ :=
      Entries.Related.of_put isReadAsCollection_unique hs.collections hs'.collections
    rw [hs.collections.has_eq] at hnew
    rw [Entries.put_of_has_eq_false hnew] at hput
    exact ⟨name, d, hname, hnew, givesCollection_of_specifies hc hd,
      schema_eq_mk (hs'.version.trans hs.version.symm) hput⟩
  | dropCollection =>
    obtain ⟨name, hname, hhas, rfl⟩ := h
    rw [hs.collections.has_eq] at hhas
    exact ⟨name, hname, hhas, schema_eq_mk (hs'.version.trans hs.version.symm)
      (Entries.Related.of_remove isReadAsCollection_unique hs.collections hs'.collections)⟩
  | addAttribute => exact editsTree_of_locatedChange isSeenAs_adds hkeyed' hw hw' h hs hs'
  | dropAttribute => exact editsTree_of_locatedChange isSeenAs_drops hkeyed' hw hw' h hs hs'
  | alterAttributeOption =>
    exact editsTree_of_locatedChange isSeenAs_alters hkeyed' hw hw' h hs hs'
  | dropAttributeOption =>
    exact editsTree_of_locatedChange isSeenAs_unsets hkeyed' hw hw' h hs hs'
  | setAttributeOptional =>
    exact editsTree_of_locatedChange isSeenAs_marks hkeyed' hw hw' h hs hs'
  | addRule =>
    exact editsRules_of_ruledChange (fun _ _ => putsRule_of_addsRule) hkeyed' h hs hs'
  | dropRule =>
    exact editsRules_of_ruledChange (fun _ _ => removesRule_of_dropsRule) hkeyed' h hs hs'

end Operation

namespace Migration

/-- A step that succeeds on a state to which migrations lead changes the schema of the state as its
operation says (`Operation.Changes`), and in no other way. All mappings in the state have texts as
keys and no value occurs within itself, as `Value.IsKeyed` asks for; and where a collection is made,
its keys and the scopes of its rules are taken by their texts (`Operation.GivesCollection`). -/
theorem runStep_changes {state state' step : Value} {s s' : Schema} (h : Reachable state)
    (hkeyed : state.IsKeyed) (hs : Schema.ofValue state = .ok (some s))
    (hrun : (runStep step).runOn state = (.ok (), state'))
    (hs' : Schema.ofValue state' = .ok (some s')) :
    ∃ op ps, Denotes step op ps ∧ op.Changes ps s s' := by
  obtain ⟨w, hw, rfl⟩ := h.isWorking
  obtain ⟨w', hstate, hw', -, hleads⟩ := does_runStep step w hw
  rw [hrun] at hstate hleads
  obtain ⟨op, ps, hdenotes, hleads⟩ := hleads () rfl
  rw [show state' = w'.toValue from hstate] at hs'
  exact ⟨op, ps, hdenotes, Operation.changes_of_leads hkeyed hw hw' hleads
    (Working.reads_of_ofValue hw hs) (Working.reads_of_ofValue hw' hs')⟩

/-- A state with a collection of notes, in which `details` is a record without attributes. -/
def plainNotes : Working :=
  ⟨1, [("notes", ⟨⟨[("details", .record [("type", .str "record")])], []⟩, none⟩)]⟩

/-- The state in which `details` has an optional `author`. -/
def signedNotes : Working :=
  ⟨1, [("notes", ⟨⟨[("details", .record [("type", .str "record"),
    ("properties", .record [("author", .record [("type", .str "string")])]),
    ("optional", .list [.str "author"])])], []⟩, none⟩)]⟩

/-- A record in a collection of notes gets an attribute, which is optional. -/
theorem runStep_changes_notes :
    ∃ op ps, Denotes (.list [.str "add_attribute", .record [("collection", .str "notes"),
        ("path", .list [.str "details", .str "author"]),
        ("attribute", .record [("type", .str "string")]), ("optional", .bool true)]]) op ps ∧
      op.Changes ps ⟨1, [("notes", ⟨⟨[("details", .record [] [])], []⟩, .null⟩)]⟩
        ⟨1, [("notes", ⟨⟨[("details",
          .record [("author", .primitive (.str "string") {})] ["author"])], []⟩, .null⟩)]⟩ := by
  have hreachable : Reachable plainNotes.toValue :=
    .apply (oneStep (.int 1) (.list [.str "create_collection", .record [("name", .str "notes"),
      ("schema", .record [("details", .record [("type", .str "record")])])]])) .empty
  -- Each mapping of the state has text keys, from the inside to the outside.
  have hdetails : (Value.record [("type", .str "record")]).IsKeyed :=
    .of_forall (by decide) .scalar
  have hrecord : (WorkingRecord.toValue
      ⟨[("details", .record [("type", .str "record")])], []⟩).IsKeyed :=
    .of_forall (by decide)
      ⟨.scalar, .of_forall (by decide) hdetails, .list fun _ h => absurd h List.not_mem_nil⟩
  have hkeyed : plainNotes.toValue.IsKeyed :=
    .of_forall (by decide) ⟨.scalar, .of_forall (by decide) (.of_forall (by decide) hrecord)⟩
  have hafter : Schema.ofValue signedNotes.toValue = .ok (some ⟨1, [("notes", ⟨⟨[("details",
      .record [("author", .primitive (.str "string") {})] ["author"])], []⟩, .null⟩)]⟩) := by
    cbv
  exact runStep_changes hreachable hkeyed (by cbv) rfl hafter

/-- A schema with a collection of notes, which have details: a record with the attributes and the
optional keys given. -/
def notesSchema (version : Int) (properties : List (String × Attribute)) (optional : List String) :
    Schema :=
  ⟨version, [("notes", ⟨⟨[("details", .record properties optional)], []⟩, .null⟩)]⟩

/-- The optional keys of the records in the collections of a schema, by which `notesSchema` and
`selfNamedSchema` can be told apart. -/
def detailsKeys (s : Schema) : List (List String) :=
  s.collections.flatMap fun c => c.2.schema.properties.map fun p => match p.2 with
    | .record _ optional => optional
    | _ => []

/-- The state in which the notes have `selfNaming` as their details, a record that is one of its own
optional keys. -/
def selfNamingNotes : Working := ⟨1, [("notes", ⟨⟨[("details", selfNaming)], []⟩, none⟩)]⟩

/-- The state after `addAuthor`: the details have an author, and the text of their own optional key
has changed with them. -/
def selfNamedNotes : Working :=
  ⟨1, [("notes", ⟨⟨[("details",
    selfNamed [("author", .record [("type", .str "string")])])], []⟩, none⟩)]⟩

/-- The state is read with the text of the details as their optional key. -/
theorem ofValue_selfNamingNotes : Schema.ofValue selfNamingNotes.toValue
    = .ok (some (notesSchema 1 [] [selfText])) := by
  have hsound : selfNamingNotes.IsSound :=
    ⟨List.nodup_singleton _, List.forall_mem_singleton.mpr ⟨List.nodup_singleton _, nofun⟩⟩
  have hdetails : Reads ⟨[("details", selfNaming)], []⟩
      ⟨[("details", .record [] [selfText])], []⟩ :=
    ⟨.cons ⟨rfl, ofValue_selfNaming _⟩ .nil, rfl⟩
  have hnotes : IsReadAsCollection ⟨⟨[("details", selfNaming)], []⟩, none⟩
      ⟨⟨[("details", .record [] [selfText])], []⟩, .null⟩ :=
    ⟨hdetails.ofValues (List.nodup_singleton _), rfl⟩
  exact Working.ofValue_of_reads hsound ⟨rfl, .cons ⟨rfl, hnotes⟩ .nil⟩

/-- The step that adds an author, a text, to the details of the notes. -/
def addAuthor : Value :=
  .list [.str "add_attribute", .record [("collection", .str "notes"),
    ("path", .list [.str "details", .str "author"]),
    ("attribute", .record [("type", .str "string")])]]

/-- What the state is read as once the details have an author: their optional key is the text that
they had with a mapping of attributes and no author. -/
def selfNamedSchema : Schema :=
  notesSchema 1 [("author", .primitive (.str "string") {})]
    ["\x7b'type': 'record', 'optional': [\x7b...\x7d], 'properties': \x7b\x7d\x7d"]

/-- The step adds an author to the schema, but that is not all that changes: only the key of the
author may become optional or not, and here another optional key appears. -/
theorem not_changes_selfNamed (op : Operation) (ps : Parameters)
    (hdenotes : Denotes addAuthor op ps) :
    ¬ op.Changes ps (notesSchema 1 [] [selfText]) selfNamedSchema := by
  intro hchanges
  obtain ⟨rfl, rfl⟩ := hdenotes.unique ⟨_, _, "add_attribute", rfl, rfl, rfl⟩
  obtain ⟨name, path, d, t, hname, hpath, hget, hedited, hschema⟩ := hchanges
  obtain rfl : "notes" = name := Except.ok.inj hname
  obtain rfl : ["details", "author"] = path := Except.ok.inj hpath
  obtain rfl : _ = d := Option.some.inj hget
  -- The claimed change goes through the attribute and puts the new one below it. It leaves the
  -- optional keys of the record alone, but they did change.
  cases hedited with
  | @further _ _ _ _ n n' hdetails hauthor =>
    have hn : Attribute.record [] [selfText] = n.toRecord := Option.some.inj hdetails
    cases hauthor with
    | here hadds =>
      obtain ⟨-, _, _, a, -, -, -, rfl⟩ := hadds
      obtain ⟨properties, optional⟩ := n
      cases hn
      have hkeys : detailsKeys selfNamedSchema = [[selfText]] := congrArg detailsKeys hschema
      exact absurd hkeys (by decide)

/-- Two steps whose effect on the schema is not the documented one alone, the first on a state all
of whose keys are texts. A record that is one of its own optional keys has another optional key
after an attribute was added to it, for the key is the text of the record. And rules whose scopes
are not texts are not carried as they are given, but under the texts of the scopes. -/
theorem exists_runStep_not_changes :
    let rules : Value := .mapping [(.int 1, .record [("all", .record [])])]
    let create : Value :=
      .list [.str "create_collection", .record [("name", .str "notes"), ("rules", rules)]]
    let carried : Value := .record [("1", .record [("all", .record [])])]
    (Reachable selfNamingNotes.toValue ∧ selfNamingNotes.toValue.hasTextKeys = true ∧
      Schema.ofValue selfNamingNotes.toValue = .ok (some (notesSchema 1 [] [selfText])) ∧
      (runStep addAuthor).runOn selfNamingNotes.toValue = (.ok (), selfNamedNotes.toValue) ∧
      Schema.ofValue selfNamedNotes.toValue = .ok (some selfNamedSchema) ∧
      ∀ op ps, Denotes addAuthor op ps →
        ¬ op.Changes ps (notesSchema 1 [] [selfText]) selfNamedSchema) ∧
    Schema.ofValue ((runStep create).runOn emptyState).2
      = .ok (some ⟨0, [("notes", ⟨⟨[], []⟩, carried⟩)]⟩) ∧ carried ≠ rules := by
  intro rules create carried
  have hreachable : Reachable selfNamingNotes.toValue :=
    .apply (oneStep (.int 1) (.list [.str "create_collection", .record [("name", .str "notes"),
      ("schema", .record [("details", selfNaming)])]])) .empty
  have hafter : Schema.ofValue selfNamedNotes.toValue = .ok (some selfNamedSchema) := by cbv
  have hcarried : Schema.ofValue ((runStep create).runOn emptyState).2
      = .ok (some ⟨0, [("notes", ⟨⟨[], []⟩, carried⟩)]⟩) := by cbv
  -- The rules of the step have the key 1 and those of the schema its text, which no equation of
  -- values allows.
  have hdiffer : carried ≠ rules := by
    intro h
    have hscopes : [Scalar.str "1"] = [Scalar.int 1] :=
      congrArg (fun v : Value => Entries.keys (v.entries?.getD [])) h
    exact absurd hscopes (by decide)
  exact ⟨⟨hreachable, rfl, ofValue_selfNamingNotes, rfl, hafter, not_changes_selfNamed⟩, hcarried,
    hdiffer⟩

end Migration

end SchemaForge
