import SchemaForge.Proofs.Migration.Success
import SchemaForge.Proofs.Migration.Tidiness
import SchemaForge.Proofs.Schema.Surroundings

/-!
# Dropping what was added

What a step adds, the step that drops it takes away again, as the table in section 6.1 of the
specification pairs them, and nothing else is left of it: not the place of a key, not a key among
the optional ones, not a scope or rules that were made for one rule (`drop_restores_added`). An
attribute is dropped on the same path on which it was added. The records on it were brought into
their normal form on the first way, so they have to be in it before (`IsNormalAlong`); then the
second way leaves them alone, and the change at its end is undone by induction along the path
(`runOn_dropUnder_of_adds`).
-/

namespace SchemaForge

open Change (withPart runOn_bind_eq_ok)

/-! ## Parts that are put back -/

namespace Value

variable {v w x : Value} {name : String} {nodes : List Value} {entries : List (Scalar × Value)}

/-- What is a mapping or a list within some nodes, and has no links of its own, is it without the
nodes as well. -/
theorem eq_of_within (hx : (∃ es, x = .mapping es) ∨ ∃ items, x = .list items)
    (h : w.within nodes = x) : w = x := by
  cases w with
  | link m keyed => rcases hx with ⟨es, rfl⟩ | ⟨items, rfl⟩ <;> cases h
  | tuple items => rcases hx with ⟨es, rfl⟩ | ⟨items, rfl⟩ <;> cases h
  | _ => exact h

/-- A mapping into which is put what it has already, a mapping or a list, is the same mapping. -/
theorem withPart_of_get (hx : (∃ es, x = .mapping es) ∨ ∃ items, x = .list items)
    (h : v.get name = .ok x) : withPart name x v = v := by
  have hnull : x ≠ .null := by
    rcases hx with ⟨es, rfl⟩ | ⟨items, rfl⟩
    · exact Value.noConfusion
    · exact Value.noConfusion
  obtain ⟨es, hes⟩ := exists_entries?_of_get h
  rw [get_of_entries? name hes] at h
  obtain ⟨nodes, entries, hmade⟩ := exists_isMadeOf (isMapping_of_entries? hes)
  cases hmade with
  | mapping =>
    obtain rfl : entries = es := Option.some.inj hes
    cases hfield : field? name entries with
    | none =>
      rw [hfield] at h
      exact absurd (Except.ok.inj h).symm hnull
    | some y =>
      rw [hfield] at h
      obtain rfl : y = x := Except.ok.inj h
      exact congrArg Value.mapping (Entries.put_of_get? hfield)
  | @knot n nodes entries hn =>
    -- the entry of the node itself has the part, since following links does not make one
    have hes' : (Value.knot n nodes).entries? = some (entriesWithin nodes entries) := by
      rw [entries?, unroll, List.getD_eq_getElem?_getD, hn, Option.getD_some]
    cases hes.symm.trans hes'
    rw [field?_entriesWithin] at h
    cases hfield : field? name entries with
    | none =>
      rw [hfield] at h
      exact absurd (Except.ok.inj h).symm hnull
    | some y =>
      rw [hfield] at h
      obtain rfl : y = x := eq_of_within hx (Except.ok.inj h)
      obtain ⟨hlt, hnode⟩ := List.getElem?_eq_some_iff.mp hn
      rw [withPart_knot hn, Entries.put_of_get? hfield, ← hnode, List.set_getElem_self]

end Value

namespace Operation

variable {v base : Value} {r r' n n' : WorkingRecord} {key name scope id : String}
  {path whole : List String} {ps ps' : Parameters} {w w' : Working} {c c' : WorkingCollection}

/-! ## Records in their normal form -/

/-- A mapping has a record in its normal form: attributes under distinct texts, and texts as
optional keys. -/
structure IsNormal (v : Value) (n : WorkingRecord) : Prop where
  /-- The keys are distinct. -/
  sound : n.IsSound
  /-- The attributes. -/
  properties : v.get "properties" = .ok (.record n.properties)
  /-- The optional keys. -/
  optional : v.get "optional" = .ok (.list (n.optional.map .str))

/-- A mapping that has a record in its normal form stays as it is when this record is put into
it. -/
theorem IsNormal.laidOver_eq (h : IsNormal v n) : n.laidOver v = v := by
  have hproperties : withPart "properties" (.record n.properties) v = v :=
    Value.withPart_of_get (.inl ⟨_, rfl⟩) h.properties
  rw [WorkingRecord.laidOver, hproperties]
  exact Value.withPart_of_get (.inr ⟨_, rfl⟩) h.optional

/-- A record that `IsNormal` in a value is the one normal form of this value. -/
theorem IsNormal.eq_of_normalForm (h : IsNormal v n) (hn : NormalForm v n') : n' = n := by
  obtain ⟨-, p, o, hp, hproperties, ho, hoptional⟩ := hn
  obtain rfl : Value.record n.properties = p := Except.ok.inj (h.properties.symm.trans hp)
  have hmapping : Parameters.mappingOf "properties" (.record n.properties)
      = .ok (textEntries n.properties) :=
    congrArg Except.ok (Parameters.withTextKeys_textEntries h.sound)
  have hsame : n'.properties = n.properties :=
    textEntries.inj (Except.ok.inj (hproperties.symm.trans hmapping))
  have hstays : withPart "properties" (.record n.properties) v = v :=
    Value.withPart_of_get (.inl ⟨_, rfl⟩) h.properties
  -- so the optional keys are read of the mapping as it was
  rw [hsame, hstays] at ho
  obtain rfl : Value.list (n.optional.map .str) = o := Except.ok.inj (h.optional.symm.trans ho)
  have hkeys : Parameters.keysOf "optional" (.list (n.optional.map .str)) = .ok n.optional :=
    congrArg Except.ok (map_text_map_str n.optional)
  have hsame' : n'.optional = n.optional := Except.ok.inj (hoptional.symm.trans hkeys)
  obtain ⟨properties, optional⟩ := n'
  obtain ⟨properties', optional'⟩ := n
  cases hsame
  cases hsame'
  rfl

/-- The records on a path are in their normal form, and the last one does not list the key at the
end as optional. -/
inductive IsNormalAlong : List String → WorkingRecord → Prop
  /-- The record at hand is the last. -/
  | here {key : String} {r : WorkingRecord} (h : key ∉ r.optional) : IsNormalAlong [key] r
  /-- The path leads on to a record in its normal form. -/
  | further {key next : String} {rest : List String} {r n : WorkingRecord} {v : Value}
      (hget : Entries.get? key r.properties = some v) (hn : IsNormal v n)
      (h : IsNormalAlong (next :: rest) n) : IsNormalAlong (key :: next :: rest) r

/-! ## Attributes -/

/-- A record into which another one is put is still a record, with the attributes of that one. -/
theorem exists_entries?_laidOver {es : List (Scalar × Value)} (hes : v.entries? = some es)
    (htype : (fieldOf "type" es).same (.str "record") = true) (n : WorkingRecord) :
    ∃ es', (n.laidOver v).entries? = some es' ∧
      (fieldOf "type" es').same (.str "record") = true := by
  have hv := Value.isMapping_withPart (Value.isMapping_of_entries? hes) "properties"
    (.record n.properties)
  obtain ⟨es', hes'⟩ := Value.exists_entries? hv
  obtain ⟨es'', hes''⟩ := Value.exists_entries?
    (Value.isMapping_withPart hv "optional" (.list (n.optional.map .str)))
  refine ⟨es'', hes'', ?_⟩
  rw [type_withPart hes' (by decide) hes'', type_withPart hes (by decide) hes', htype]

/-- The change that takes an attribute away from the record at hand, as `runDropAttribute` runs it
at the end of the path. -/
def dropUnder (key : String) : Change Refusal Unit := do
  .inItem "properties" do
    let _ ← attributeIn key (← get)
    .erase key
  setOptional key false

/-- The record at hand loses an attribute that it has, and the key is not optional any more. -/
theorem runOn_dropUnder (hb : base.isMapping = true) {a : Value}
    (hget : Entries.get? key r.properties = some a) (ha : a.isMapping = true) :
    (dropUnder key).runOn (r.laidOver base) = (.ok (), WorkingRecord.laidOver base
      ⟨Entries.remove key r.properties, withOptional key false r.optional⟩) := by
  -- The absent value is no mapping.
  have hnull : a.isNull = false := by
    cases hnull : a.isNull with
    | false => rfl
    | true =>
      rw [Value.eq_null_of_isNull hnull] at ha
      cases ha
  have hfound : attributeIn key (.record r.properties) = .ok a := by
    unfold attributeIn
    rw [Value.get_record, hget]
    show (if a.isNull = true then _ else if a.isMapping = true then _ else _) = _
    rw [if_neg (by rw [hnull]; exact Bool.false_ne_true), if_pos ha]
    rfl
  -- It is found, so it is erased among the attributes, and then its key among the optional ones.
  have herase : (Change.erase key : Change Refusal Unit).runOn (.record r.properties)
      = (.ok (), .record (Entries.remove key r.properties)) :=
    Change.runOn_replace (g := fun v => v.delete key)
      (Value.delete_record (has_of_get? hget))
  have hdrop : (do let _ ← attributeIn key (← get); .erase key : Change Refusal Unit).runOn
      (.record r.properties) = (.ok (), .record (Entries.remove key r.properties)) := by
    refine runOn_bind_eq_ok.mpr ⟨_, _, rfl, ?_⟩
    rw [hfound]
    exact runOn_bind_eq_ok.mpr ⟨_, _, rfl, herase⟩
  exact runOn_bind_eq_ok.mpr
    ⟨_, _, runOn_inProperties hb hdrop, runOn_setOptional hb key false _⟩

/-- A key that is new among optional keys and is taken away again leaves the keys as they were. -/
theorem withOptional_withOptional {keys : List String} (h : key ∉ keys) (optional : Bool) :
    withOptional key false (withOptional key optional keys) = keys := by
  have hfilter : keys.filter (· ≠ key) = keys :=
    List.filter_eq_self.mpr fun k hk => by
      simpa using fun heq : k = key => h (heq ▸ hk)
  cases optional with
  | false =>
    show (keys.filter (· ≠ key)).filter (· ≠ key) = keys
    rw [hfilter, hfilter]
  | true =>
    show (keys.filter (· ≠ key) ++ [key]).filter (· ≠ key) = keys
    rw [hfilter, List.filter_append, hfilter]
    simp

/-- An attribute that was added at the end of a path is taken away on the same path, and the record
is as it was. The induction is on the path. -/
theorem runOn_dropUnder_of_adds (hb : base.isMapping = true) (h : ChangedAt (Adds ps) path r r')
    (hnormal : IsNormalAlong path r) :
    (inRecord whole dropUnder path).runOn (r'.laidOver base) = (.ok (), r.laidOver base) := by
  induction h generalizing base with
  | @here key r r' hadds =>
    obtain ⟨hnew, added, entries, -, -, rfl⟩ := hadds
    cases hnormal with
    | here hkey =>
      have hdrop := runOn_dropUnder hb
        (r := ⟨Entries.put key (.mapping entries) r.properties,
          withOptional key (ps.optional "optional").isTruthy r.optional⟩)
        Entries.get?_put_self rfl
      rw [Entries.remove_put (beq_self_eq_true key) hnew, withOptional_withOptional hkey] at hdrop
      exact hdrop
  | @further key next rest r n n' v es hget hes htype hn hn' _ ih =>
    cases hnormal with
    | @further _ _ _ _ n₀ v₀ hget₀ hnormal hrest =>
      obtain rfl : v = v₀ := Option.some.inj (hget.symm.trans hget₀)
      obtain rfl : n = n₀ := hnormal.eq_of_normalForm hn
      have hv := Value.isMapping_of_entries? hes
      -- the next record is found again, and normalising does nothing to it this time
      obtain ⟨es', hes', htype'⟩ := exists_entries?_laidOver hes htype n'
      have hinner : (do normalise; inRecord whole dropUnder (next :: rest)).runOn (n'.laidOver v)
          = (.ok (), v) := by
        have hback := ih hv hrest
        rw [hnormal.laidOver_eq] at hback
        exact runOn_bind_eq_ok.mpr ⟨_, _, runOn_normalise_laidOver hv hn', hback⟩
      have hdrop := runOn_inRecord_further hb
        (r := { r with properties := Entries.put key (n'.laidOver v) r.properties })
        Entries.get?_put_self hes' htype' hinner
      rw [Entries.put_put (beq_self_eq_true key), Entries.put_of_get? hget] at hdrop
      exact hdrop

/-! ## Collections -/

/-- The operation `runDropCollection` takes a collection away that is there. -/
theorem runOn_dropCollection (hname : ps.nameOf "name" = .ok name)
    (hget : Entries.get? name w.collections = some c) :
    (runDropCollection ps).runOn w.toValue = (.ok (), Working.toValue
      { w with collections := Entries.remove name w.collections }) := by
  have hfound := Working.collectionIn_allToValue name w.collections
  rw [hget] at hfound
  have hhas : Entries.has name (Entries.mapValues WorkingCollection.toValue w.collections)
      = true := by
    rw [Entries.has, Entries.get?_mapValues, hget]
    rfl
  -- The collection is there, so that its removal succeeds.
  have hdelete : (WorkingCollection.allToValue w.collections).delete name
      = .ok (WorkingCollection.allToValue (Entries.remove name w.collections)) := by
    rw [WorkingCollection.allToValue, Value.delete_record hhas, Entries.remove_mapValues]
    rfl
  refine runOn_bind_eq_ok.mpr ⟨_, _, congrArg (·, _) hname, ?_⟩
  refine runOn_inCollections ?_
  refine runOn_bind_eq_ok.mpr ⟨_, _, rfl, ?_⟩
  rw [hfound]
  exact runOn_bind_eq_ok.mpr
    ⟨_, _, rfl, Change.runOn_replace (g := fun v => v.delete name) hdelete⟩

/-! ## Rules -/

section Rules

variable {record : WorkingRecord} {rules rules' : List (String × Value)} {left : Value}

/-- The rules without one rule of a scope, given what is left of the scope: a scope without rules
goes too. -/
def withoutRule (scope : String) (left : Value) (rules : List (String × Value)) :
    List (String × Value) :=
  if left.isTruthy then Entries.put scope left rules else Entries.remove scope rules

/-- The operation `removeRule` takes a rule away from the scope in which it is. -/
theorem runOn_removeRule (hid : ps.nameOf "id" = .ok id)
    (hget : Entries.get? scope rules = some v) (hv : v.isMapping = true)
    (htruthy : v.isTruthy = true) (hleft : v.discard id = .ok left) :
    (removeRule ps scope).runOn (.record rules)
      = (.ok (), .record (withoutRule scope left rules)) := by
  have hrules : ((Entries.get? scope rules).getD .null).orElse (.mapping []) = v := by
    rw [hget, Option.getD_some, Value.orElse, if_pos htruthy]
  refine runOn_bind_eq_ok.mpr ⟨_, _, Change.runOn_look_record, ?_⟩
  rw [hrules]
  dsimp only
  rw [hv]
  refine runOn_bind_eq_ok.mpr ⟨_, _, congrArg (·, _) hid, ?_⟩
  rw [hleft]
  refine runOn_bind_eq_ok.mpr ⟨_, _, rfl, ?_⟩
  unfold withoutRule
  split
  · exact Change.runOn_write_record
  · exact Change.runOn_replace (g := fun v => v.discard scope) Value.discard_record

/-- A change that succeeds on the rules of a collection succeeds on the collection. -/
theorem runOn_inRules {change : Change Refusal Unit}
    (hrun : change.runOn (.record rules) = (.ok (), .record rules')) :
    (inRules change).runOn (WorkingCollection.toValue ⟨record, some rules⟩)
      = (.ok (), WorkingCollection.toValue ⟨record, some rules'⟩) := by
  have hthere : Entries.has (Scalar.str "rules")
      (textEntries [("schema", record.toValue), ("rules", .record rules)]) = true := rfl
  have hrules : (WorkingCollection.toValue ⟨record, some rules⟩).get "rules"
      = .ok (.record rules) := Value.get_record
  have hput : withPart "rules" (.record rules')
      (WorkingCollection.toValue ⟨record, some rules⟩)
        = WorkingCollection.toValue ⟨record, some rules'⟩ := Value.withPart_record
  refine runOn_bind_eq_ok.mpr ⟨(), WorkingCollection.toValue ⟨record, some rules⟩, ?_, ?_⟩
  · exact (Change.runOn_writeNew Value.entries?_record).trans (if_pos hthere)
  · rw [Change.runOn_within, hrules]
    show ((change.runOn (.record rules)).1, _) = _
    rw [hrun, hput]

/-- The operation `runDropRule` takes a rule of a collection away, and with it the scope and the
rules that are empty then. -/
theorem runOn_dropRule (hname : ps.nameOf "collection" = .ok name)
    (hscope : ps.nameOf "scope" = .ok scope) (hid : ps.nameOf "id" = .ok id)
    (hc : Entries.get? name w.collections = some ⟨record, some rules⟩)
    (hget : Entries.get? scope rules = some v) (hv : v.isMapping = true)
    (htruthy : v.isTruthy = true) (hleft : v.discard id = .ok left) :
    (runDropRule ps).runOn w.toValue = (.ok (), Working.toValue { w with
      collections := Entries.put name ⟨record, if (withoutRule scope left rules).isEmpty then none
        else some (withoutRule scope left rules)⟩ w.collections }) := by
  refine runOn_bind_eq_ok.mpr ⟨_, _, congrArg (·, _) hname, ?_⟩
  refine runOn_inCollection hc ?_
  refine runOn_bind_eq_ok.mpr ⟨_, _, congrArg (·, _) hscope, ?_⟩
  refine runOn_bind_eq_ok.mpr
    ⟨_, _, runOn_inRules (runOn_removeRule hid hget hv htruthy hleft), ?_⟩
  refine runOn_bind_eq_ok.mpr ⟨_, _, Change.runOn_look_record, ?_⟩
  cases withoutRule scope left rules with
  | nil => exact Change.runOn_replace (g := fun v => v.discard "rules") Value.discard_record
  | cons rule rules => rfl

end Rules

/-! ## Operations -/

/-- An operation takes away what another one adds to a state: a collection of the same name, an
attribute on the same path, or a rule of the same scope and id. For an attribute the records on the
path are in their normal form before (`IsNormalAlong`); for a rule there are no empty rules and no
empty scope before. -/
inductive Undoes (w : Working) (ps ps' : Parameters) : Operation → Operation → Prop
  /-- The collection is taken away. -/
  | ofCollection {name : String} (hname : ps.nameOf "name" = .ok name)
      (hname' : ps'.nameOf "name" = .ok name) :
      Undoes w ps ps' createCollection dropCollection
  /-- The attribute is taken away. -/
  | ofAttribute {name : String} {path : List String} {c : WorkingCollection}
      (hname : ps.nameOf "collection" = .ok name) (hname' : ps'.nameOf "collection" = .ok name)
      (hpath : ps.path = .ok path) (hpath' : ps'.path = .ok path)
      (hget : Entries.get? name w.collections = some c) (hnormal : IsNormalAlong path c.record) :
      Undoes w ps ps' addAttribute dropAttribute
  /-- The rule is taken away. -/
  | ofRule {name scope id : String} {c : WorkingCollection}
      (hname : ps.nameOf "collection" = .ok name) (hname' : ps'.nameOf "collection" = .ok name)
      (hscope : ps.nameOf "scope" = .ok scope) (hscope' : ps'.nameOf "scope" = .ok scope)
      (hid : ps.nameOf "id" = .ok id) (hid' : ps'.nameOf "id" = .ok id)
      (hget : Entries.get? name w.collections = some c) (hrules : c.rules ≠ some [])
      (hscoped : ∀ v, Entries.get? scope (c.rules.getD []) = some v →
        v.isTruthy = true ∧ v.contains id = .ok false) :
      Undoes w ps ps' addRule dropRule

/-- What is left of the rules, when the rule that was added is taken away, is what there was, if
there were no empty scope and no empty rules. -/
theorem rules_withoutRule {rules : Option (List (String × Value))} (hrules : rules ≠ some [])
    (hscoped : ∀ v, Entries.get? scope (rules.getD []) = some v → v.isTruthy = true)
    (hv : (Entries.get? scope (rules.getD [])).getD (.mapping []) = v) (x : Value) :
    let left := withoutRule scope v (Entries.put scope x (rules.getD []))
    (if left.isEmpty then none else some left) = rules := by
  have hleft : withoutRule scope v (Entries.put scope x (rules.getD [])) = rules.getD [] := by
    cases hget : Entries.get? scope (rules.getD []) with
    | none =>
      rw [hget] at hv
      subst hv
      exact Entries.remove_put (beq_self_eq_true scope) (by rw [Entries.has, hget]; rfl)
    | some u =>
      -- the scope is not empty, so it is put back instead of being taken away
      rw [hget, Option.getD_some] at hv
      subst hv
      rw [withoutRule, if_pos (hscoped u hget), Entries.put_put (beq_self_eq_true scope),
        Entries.put_of_get? hget]
  dsimp only
  rw [hleft]
  cases rules with
  | none => rfl
  | some rules =>
    cases rules with
    | nil => exact absurd rfl hrules
    | cons rule rules => rfl

/-- A collection that is replaced and put back leaves the collections as they were, in their
order. -/
theorem put_put_of_get? {cs : List (String × WorkingCollection)}
    (h : Entries.get? name cs = some c) : Entries.put name c (Entries.put name c' cs) = cs := by
  rw [Entries.put_put (beq_self_eq_true name), Entries.put_of_get? h]

/-- A collection that was made is taken away, and the state is as it was. -/
theorem runOn_dropCollection_of_creates (h : Creates ps w w') (hname : ps.nameOf "name" = .ok name)
    (hname' : ps'.nameOf "name" = .ok name) (m : ℤ) :
    (runDropCollection ps').runOn (Working.toValue { w' with version := m })
      = (.ok (), Working.toValue { w with version := m }) := by
  obtain ⟨name₀, c, hname₀, hnew, -, rfl⟩ := h
  obtain rfl : name = name₀ := Except.ok.inj (hname.symm.trans hname₀)
  have hrun := runOn_dropCollection hname'
    (w := { version := m, collections := Entries.put name c w.collections }) Entries.get?_put_self
  rw [Entries.remove_put (beq_self_eq_true name) hnew] at hrun
  exact hrun

/-- An attribute that was added is taken away, and the state is as it was. -/
theorem runOn_dropAttribute_of_adds (h : LocatedChange ps (Adds ps) w w')
    (hname : ps.nameOf "collection" = .ok name) (hname' : ps'.nameOf "collection" = .ok name)
    (hpath : ps.path = .ok path) (hpath' : ps'.path = .ok path)
    (hget : Entries.get? name w.collections = some c) (hnormal : IsNormalAlong path c.record)
    (m : ℤ) : (runDropAttribute ps').runOn (Working.toValue { w' with version := m })
      = (.ok (), Working.toValue { w with version := m }) := by
  obtain ⟨name₀, path₀, c₀, r, hname₀, hpath₀, hget₀, hadds, rfl⟩ := h
  obtain rfl : name = name₀ := Except.ok.inj (hname.symm.trans hname₀)
  obtain rfl : path = path₀ := Except.ok.inj (hpath.symm.trans hpath₀)
  obtain rfl : c = c₀ := Option.some.inj (hget.symm.trans hget₀)
  have hne : path ≠ [] := by
    cases hnormal <;> exact List.cons_ne_nil _ _
  have hbase : (recordOf [] []).isMapping = true := rfl
  -- On the record alone the removal undoes the addition, and the rest of the state is put back as
  -- it was.
  have hdrop : (inRecord path dropUnder path).runOn r.toValue = (.ok (), c.record.toValue) :=
    runOn_dropUnder_of_adds hbase hadds hnormal
  have hrun := runOn_locate hname' hpath' hne
    (w := { version := m, collections := Entries.put name { c with record := r } w.collections })
    Entries.get?_put_self hdrop
  rw [put_put_of_get? hget] at hrun
  exact hrun

/-- A rule that was added is taken away, with the scope and the rules that were made for it, and the
state is as it was. -/
theorem runOn_dropRule_of_addsRule (h : RuledChange ps (AddsRule ps) w w')
    (hname : ps.nameOf "collection" = .ok name) (hname' : ps'.nameOf "collection" = .ok name)
    (hscope : ps.nameOf "scope" = .ok scope) (hscope' : ps'.nameOf "scope" = .ok scope)
    (hid : ps.nameOf "id" = .ok id) (hid' : ps'.nameOf "id" = .ok id)
    (hget : Entries.get? name w.collections = some c) (hrules : c.rules ≠ some [])
    (hscoped : ∀ v, Entries.get? scope (c.rules.getD []) = some v →
      v.isTruthy = true ∧ v.contains id = .ok false) (m : ℤ) :
    (runDropRule ps').runOn (Working.toValue { w' with version := m })
      = (.ok (), Working.toValue { w with version := m }) := by
  obtain ⟨name₀, c₀, _, hname₀, hget₀, hadds, rfl⟩ := h
  obtain ⟨scope₀, id₀, rule, v, hscope₀, hid₀, -, hv, hmapping, rfl⟩ := hadds
  obtain rfl : name = name₀ := Except.ok.inj (hname.symm.trans hname₀)
  obtain rfl : scope = scope₀ := Except.ok.inj (hscope.symm.trans hscope₀)
  obtain rfl : id = id₀ := Except.ok.inj (hid.symm.trans hid₀)
  obtain rfl : c = c₀ := Option.some.inj (hget.symm.trans hget₀)
  -- The id is new in the scope, so that without it the scope is as it was.
  have hnew : v.contains id = .ok false := by
    cases hfound : Entries.get? scope (c.rules.getD []) with
    | none =>
      rw [hfound] at hv
      subst hv
      rfl
    | some u =>
      rw [hfound, Option.getD_some] at hv
      subst hv
      exact (hscoped u hfound).2
  have hrun := runOn_dropRule hname' hscope' hid'
    (w := { version := m, collections := Entries.put name { c with
      rules := some (Entries.put scope (withPart id rule v) (c.rules.getD [])) } w.collections })
    Entries.get?_put_self Entries.get?_put_self (Value.isMapping_withPart hmapping id rule)
    (Value.isTruthy_withPart hmapping id rule) (Value.discard_withPart hmapping hnew rule)
  rw [rules_withoutRule hrules (fun u hu => (hscoped u hu).1) hv, put_put_of_get? hget] at hrun
  exact hrun

/-- What an operation adds to a state is taken away by the one that `Undoes` it, whatever version
the state has got in between. -/
theorem runOn_of_undoes {op op' : Operation} (hundoes : Undoes w ps ps' op op')
    (h : op.Leads ps w w') (m : ℤ) :
    (op'.run ps').runOn (Working.toValue { w' with version := m })
      = (.ok (), Working.toValue { w with version := m }) := by
  cases hundoes with
  | ofCollection hname hname' => exact runOn_dropCollection_of_creates h hname hname' m
  | ofAttribute hname hname' hpath hpath' hget hnormal =>
    exact runOn_dropAttribute_of_adds h hname hname' hpath hpath' hget hnormal m
  | ofRule hname hname' hscope hscope' hid hid' hget hrules hscoped =>
    exact runOn_dropRule_of_addsRule h hname hname' hscope hscope' hid hid' hget hrules hscoped m

end Operation

namespace Migration

open Operation (Undoes)

variable {version step v : Value} {op : Operation} {ps : Parameters} {w w' : Working} {n : ℤ}

/-- A migration by one step that succeeds leads where the operation of the step does, and gives the
state some version. -/
theorem exists_leads_of_apply (hw : w.IsSound)
    (h : (apply (oneStep version step)).runOn w.toValue = (.ok (), v)) :
    ∃ op ps w' n, Denotes step op ps ∧ op.Leads ps w w' ∧
      v = Working.toValue { w' with version := n } := by
  -- A version that is no integer fails before the step.
  cases hversion : version.toInt with
  | error fault =>
    obtain ⟨failure, hfails⟩ := exists_failure_of_apply hversion
    rw [hfails] at h
    cases h
  | ok n =>
    rw [runOn_apply_oneStep hversion] at h
    obtain ⟨_, u, hstep, hwrite⟩ := Change.runOn_bind_eq_ok.mp h
    obtain ⟨op, ps, w', hd, hleads, -, rfl⟩ :=
      exists_leads_of_runStep hw (runOn_of_runOn_seenAs hstep)
    rw [runOn_writeVersion] at hwrite
    exact ⟨op, ps, w', n, hd, hleads, (Prod.mk.inj hwrite).2.symm⟩

/-- A migration by one step succeeds if its operation does, and gives the state its version. -/
theorem runOn_apply_of_runOn (hd : Denotes step op ps) (hversion : version.toInt = .ok n)
    (h : (op.run ps).runOn w.toValue = (.ok (), w'.toValue)) :
    (apply (oneStep version step)).runOn w.toValue
      = (.ok (), Working.toValue { w' with version := n }) := by
  have hstep : ((runStep step).seenAs (⟨·, some n, none⟩) : Change MigrationError Unit).runOn
      w.toValue = (.ok (), w'.toValue) := by
    rw [runOn_seenAs, runOn_runStep hd, h]
    rfl
  rw [runOn_apply_oneStep hversion]
  exact Change.runOn_bind_eq_ok.mpr ⟨_, _, hstep, runOn_writeVersion w' n⟩

/-- What a step adds to a state to which migrations lead, the step that drops it takes away again.
The state that is left is the one of before, apart from its version: no key has moved, and no empty
scope is left. -/
theorem drop_restores_added {state : Value} (h : Reachable state) :
    ∃ w : Working, w.IsSound ∧ state = w.toValue ∧
      ∀ add drop op op' ps ps', Denotes add op ps → Denotes drop op' ps' →
        Undoes w ps ps' op op' → ∀ version version' n added, version'.toInt = .ok n →
          (apply (oneStep version add)).runOn state = (.ok (), added) →
            (apply (oneStep version' drop)).runOn added
              = (.ok (), Working.toValue { w with version := n }) := by
  obtain ⟨w, hw, rfl⟩ := h.isWorking
  refine ⟨w, hw, rfl, ?_⟩
  intro add drop op op' ps ps' hadd hdrop hundoes version version' n added hversion' hrun
  obtain ⟨op₀, ps₀, w', m, hadd₀, hleads, rfl⟩ := exists_leads_of_apply hw hrun
  obtain ⟨rfl, rfl⟩ := hadd.unique hadd₀
  have hrestored := runOn_apply_of_runOn hdrop hversion'
    (Operation.runOn_of_undoes hundoes hleads m)
  exact hrestored

/-- In a state with notes that have details, an optional title of the details is added and dropped,
and so is a rule, for which rules and a scope are made. -/
theorem drop_restores_added_notes :
    let text : Value := .record [("type", .str "string")]
    let details : Value := .record [("type", .str "record"),
      ("properties", .record [("author", text)]), ("optional", .list [.str "author"])]
    let create : Value := .list [.str "create_collection", .record [("name", .str "notes"),
      ("schema", .record [("details", details)])]]
    let title : List (String × Value) :=
      [("collection", .str "notes"), ("path", .list [.str "details", .str "title"])]
    let rule : List (String × Value) :=
      [("collection", .str "notes"), ("scope", .str "read"), ("id", .str "all")]
    let addTitle : Value := .list [.str "add_attribute",
      .record (title ++ [("attribute", text), ("optional", .bool true)])]
    let dropTitle : Value := .list [.str "drop_attribute", .record title]
    let addRule : Value := .list [.str "add_rule", .record (rule ++ [("rule", .bool true)])]
    let dropRule : Value := .list [.str "drop_rule", .record rule]
    let migrate (version : ℤ) (step : Value) : Value → Outcome MigrationError Unit × Value :=
      (apply (oneStep (.int version) step)).runOn
    let state := (migrate 0 create emptyState).2
    let restored := Working.toValue { untitledNotes with version := 2 }
    state = untitledNotes.toValue ∧
      (migrate 1 addTitle state).1 = .ok () ∧
        migrate 2 dropTitle (migrate 1 addTitle state).2 = (.ok (), restored) ∧
          (migrate 1 addRule state).1 = .ok () ∧
            migrate 2 dropRule (migrate 1 addRule state).2 = (.ok (), restored) := by
  intro text details create title rule addTitle dropTitle addRule dropRule migrate state restored
  have hstate : state = untitledNotes.toValue := rfl
  obtain ⟨w, -, hw, hrestores⟩ := drop_restores_added (.apply (oneStep (.int 0) create) .empty)
  obtain rfl : untitledNotes = w := Working.toValue_injective (hstate.symm.trans hw)
  -- The record on the path is in normal form already, so that walking there adds nothing to it.
  have hnormal : Operation.IsNormal details ⟨[("author", text)], ["author"]⟩ :=
    ⟨List.nodup_singleton _, rfl, rfl⟩
  have htitle := hrestores addTitle dropTitle .addAttribute .dropAttribute _ _
    ⟨_, _, "add_attribute", rfl, rfl, rfl⟩ ⟨_, _, "drop_attribute", rfl, rfl, rfl⟩
    (.ofAttribute rfl rfl rfl rfl rfl (.further rfl hnormal (.here (by decide))))
    (.int 1) (.int 2) 2 _ rfl rfl
  have hrule := hrestores addRule dropRule .addRule .dropRule _ _
    ⟨_, _, "add_rule", rfl, rfl, rfl⟩ ⟨_, _, "drop_rule", rfl, rfl, rfl⟩
    (.ofRule rfl rfl rfl rfl rfl rfl rfl (fun h => by cases h) fun _ h => by cases h)
    (.int 1) (.int 2) 2 _ rfl rfl
  exact ⟨hstate, rfl, htitle, rfl, hrule⟩

end Migration

end SchemaForge
