import Mathlib.Data.Int.Notation
import SchemaForge.Proofs.Migration.Change
import SchemaForge.Proofs.Value.Access

/-!
# Working states

The shape that every working state has, as data: a version and collections by name, each with a
record in its normal form and perhaps rules. `Working.toValue` is the value of a state of this
shape. A record further down is in its normal form in a mapping that may hold other parts as well
(`WorkingRecord.laidOver`).
-/

namespace SchemaForge

open Change (withPart Does)

/-- A record in its normal form: attributes under distinct texts, each of them any value, and
optional keys as texts. -/
structure WorkingRecord where
  /-- The attributes by key; nothing is known of them. -/
  properties : List (String × Value)
  /-- The optional keys, perhaps repeated. -/
  optional : List String

/-- A collection in a working state: a record in its normal form, and rules by scope if there are
any. -/
structure WorkingCollection where
  /-- The record of its attributes. -/
  record : WorkingRecord
  /-- The rules by scope, if there are any; nothing is known of the scopes. -/
  rules : Option (List (String × Value)) := none

/-- A working state as data: a version, and collections by name. Its value (`Working.toValue`) is
what operations run on. -/
structure Working where
  /-- The version of the last migration that has succeeded. -/
  version : ℤ
  /-- The collections by name. -/
  collections : List (String × WorkingCollection)

/-! ## Records -/

namespace WorkingRecord

/-- The keys of the attributes are distinct, as the keys of a mapping are. -/
def IsSound (r : WorkingRecord) : Prop := (Entries.keys r.properties).Nodup

/-- The record of a collection as a value, with its type, its attributes and its optional keys. -/
def toValue (r : WorkingRecord) : Value :=
  .record [("type", .str "record"), ("properties", .record r.properties),
    ("optional", .list (r.optional.map .str))]

/-- The record put in the place of what a mapping has as attributes and optional keys, while the
other parts of the mapping stay. -/
def laidOver (base : Value) (r : WorkingRecord) : Value :=
  withPart "optional" (.list (r.optional.map .str))
    (withPart "properties" (.record r.properties) base)

/-- The record of a collection has nothing besides, so it is laid over an empty one. -/
theorem toValue_eq_laidOver (r : WorkingRecord) :
    r.toValue = r.laidOver (Operation.recordOf [] []) := rfl

/-- A record of the working state is known by its value. -/
theorem toValue_injective : Function.Injective toValue := by
  intro r r' h
  have hfields := textEntries.inj (Value.mapping.inj h)
  simp only [List.cons.injEq, Prod.mk.injEq, and_true, true_and, Value.list.injEq] at hfields
  obtain ⟨hproperties, hoptional⟩ := hfields
  have hstr : Function.Injective Value.str := fun s t hst => Scalar.str.inj (Value.scalar.inj hst)
  obtain ⟨properties, optional⟩ := r
  obtain ⟨properties', optional'⟩ := r'
  obtain rfl := textEntries.inj (Value.mapping.inj hproperties)
  obtain rfl := List.map_injective_iff.mpr hstr hoptional
  rfl

variable {base : Value} {r : WorkingRecord}

/-- A record that is laid over a mapping gives a mapping again. -/
theorem isMapping_laidOver (hb : base.isMapping = true) : (r.laidOver base).isMapping = true :=
  Value.isMapping_withPart (Value.isMapping_withPart hb _ _) _ _

/-- What a mapping with a record has as attributes are those of the record. -/
theorem item_properties_laidOver (hb : base.isMapping = true) :
    (r.laidOver base).item "properties" = .ok (.record r.properties) :=
  Value.item_withPart_withPart hb (by decide) (fun _ => rfl) _

/-- What a mapping with a record has as optional keys are those of the record. -/
theorem get_optional_laidOver (hb : base.isMapping = true) :
    (r.laidOver base).get "optional" = .ok (.list (r.optional.map .str)) :=
  Value.get_of_item (Value.item_withPart (Value.isMapping_withPart hb _ _) fun _ => rfl)

/-- Other attributes that are put into a mapping with a record are those of another record in the
same place. -/
theorem withPart_properties_laidOver (hb : base.isMapping = true) (ps : List (String × Value)) :
    withPart "properties" (.record ps) (r.laidOver base)
      = WorkingRecord.laidOver base { r with properties := ps } :=
  Value.withPart_withPart_withPart hb (by decide) _ _ _

/-- Other optional keys that are put into a mapping with a record are those of another record in the
same place. -/
theorem withPart_optional_laidOver (hb : base.isMapping = true) (keys : List String) :
    withPart "optional" (.list (keys.map .str)) (r.laidOver base)
      = WorkingRecord.laidOver base { r with optional := keys } :=
  Value.withPart_withPart (Value.isMapping_withPart hb _ _) _ _ _

/-- A change of the attributes of a record is a change of the record, the rest of which stays. -/
theorem does_inProperties {change : Change Refusal α} {P : α → List (String × Value) → Prop}
    (hb : base.isMapping = true)
    (h : Does Value.record (fun ps => (Entries.keys ps).Nodup) change r.properties P) :
    Does (WorkingRecord.laidOver base) IsSound (.inItem "properties" change) r fun a r' =>
      ∃ ps, (Entries.keys ps).Nodup ∧ P a ps ∧ r' = { r with properties := ps } := by
  unfold Change.inItem
  refine Change.does_within h ?_ ?_ (withPart_properties_laidOver hb) ?_
  · rw [item_properties_laidOver hb]
    rfl
  · exact fun hr => hr
  · exact fun ps _ hps => hps

end WorkingRecord

/-! ## Collections -/

namespace WorkingCollection

/-- The keys of the attributes and the scopes of the rules are distinct. -/
structure IsSound (c : WorkingCollection) : Prop where
  /-- So are the keys of the attributes. -/
  record : c.record.IsSound
  /-- So are the scopes. -/
  rules : ∀ rules, c.rules = some rules → (Entries.keys rules).Nodup

/-- The collection as a value: its schema, and its rules if there are any. -/
def toValue (c : WorkingCollection) : Value :=
  .record (("schema", c.record.toValue) :: c.rules.elim [] fun rules => [("rules", .record rules)])

/-- A collection of the working state is known by its value, also whether it has rules. -/
theorem toValue_injective : Function.Injective toValue := by
  intro c c' h
  have hfields := textEntries.inj (Value.mapping.inj h)
  obtain ⟨record, rules⟩ := c
  obtain ⟨record', rules'⟩ := c'
  cases rules with
  | none =>
    cases rules' with
    | none =>
      simp only [List.cons.injEq, Prod.mk.injEq, true_and, and_true, Option.elim] at hfields
      rw [WorkingRecord.toValue_injective hfields]
    | some rules' => simp [Option.elim] at hfields
  | some rules =>
    cases rules' with
    | none => simp [Option.elim] at hfields
    | some rules' =>
      simp only [List.cons.injEq, Prod.mk.injEq, true_and, and_true, Option.elim] at hfields
      obtain ⟨hrecord, hrules⟩ := hfields
      rw [WorkingRecord.toValue_injective hrecord, textEntries.inj (Value.mapping.inj hrules)]

/-- Collections under their names, as the mapping that is under `collections` in the value of a
state. -/
def allToValue (cs : List (String × WorkingCollection)) : Value :=
  .record (Entries.mapValues toValue cs)

/-- The names of collections are distinct, and the collections are sound. -/
structure AreSound (cs : List (String × WorkingCollection)) : Prop where
  /-- The names are distinct. -/
  names : (Entries.keys cs).Nodup
  /-- The collections are sound. -/
  all : ∀ c ∈ cs, c.2.IsSound

variable {c : WorkingCollection} {cs : List (String × WorkingCollection)} {name : String}

/-- A sound collection may be put among others, under a new name or an old one. -/
theorem AreSound.put (h : AreSound cs) (hc : c.IsSound) : AreSound (Entries.put name c cs) := by
  refine ⟨Entries.nodup_keys_put h.names, fun d hd => ?_⟩
  rcases Entries.mem_put hd with rfl | hd
  · exact hc
  · exact h.all d hd

/-- Sound collections stay so when one is taken away. -/
theorem AreSound.remove (h : AreSound cs) : AreSound (Entries.remove name cs) :=
  ⟨Entries.nodup_keys_remove h.names, fun d hd => h.all d (Entries.mem_of_mem_remove hd)⟩

/-- A change of the record of a collection is a change of the collection. -/
theorem does_inSchema {change : Change Refusal α} {P : α → WorkingRecord → Prop}
    (h : Does WorkingRecord.toValue WorkingRecord.IsSound change c.record P) :
    Does toValue IsSound (.inItem "schema" change) c fun a c' =>
      ∃ r, r.IsSound ∧ P a r ∧ c' = { c with record := r } := by
  unfold Change.inItem
  refine Change.does_within h ?_ ?_ ?_ ?_
  · rw [toValue, Value.item_record rfl]
    rfl
  · exact fun hc => hc.record
  · exact fun r => Value.withPart_record
  · exact fun r hc hr => ⟨hr, hc.rules⟩

end WorkingCollection

/-! ## States -/

namespace Working

/-- The names of the collections are distinct, and the collections are sound. -/
def IsSound (w : Working) : Prop := WorkingCollection.AreSound w.collections

/-- The working state as a value, with the version and the collections, which is what the operations
run on. -/
def toValue (w : Working) : Value :=
  .record [("version", .int w.version),
    ("collections", WorkingCollection.allToValue w.collections)]

/-- A state is known by its value, so that what is proved of values is proved of states. -/
theorem toValue_injective : Function.Injective toValue := by
  intro w w' h
  have hfields := textEntries.inj (Value.mapping.inj h)
  simp only [List.cons.injEq, Prod.mk.injEq, and_true, true_and] at hfields
  obtain ⟨hversion, hcollections⟩ := hfields
  have hcs := textEntries.inj (Value.mapping.inj hcollections)
  obtain ⟨version, cs⟩ := w
  obtain ⟨version', cs'⟩ := w'
  have hpair : Function.Injective fun c : String × WorkingCollection => (c.1, c.2.toValue) :=
    fun c d hcd => Prod.ext (Prod.mk.inj hcd).1
      (WorkingCollection.toValue_injective (Prod.mk.inj hcd).2)
  obtain rfl : version = version' := Scalar.int.inj (Value.scalar.inj hversion)
  obtain rfl : cs = cs' := List.map_injective_iff.mpr hpair hcs
  rfl

variable {w : Working} {name : String}

/-- A change of the collections of a state is a change of the state, the version of which stays. -/
theorem does_inCollections {change : Change Refusal α}
    {P : α → List (String × WorkingCollection) → Prop}
    (h : Does WorkingCollection.allToValue WorkingCollection.AreSound change w.collections P) :
    Does toValue IsSound (.inItem "collections" change) w fun a w' =>
      ∃ cs, WorkingCollection.AreSound cs ∧ P a cs ∧ w' = { w with collections := cs } := by
  unfold Change.inItem
  refine Change.does_within h ?_ ?_ ?_ ?_
  · rw [toValue, Value.item_record rfl]
    rfl
  · exact fun hw => hw
  · exact fun cs => Value.withPart_record
  · exact fun cs _ hcs => hcs

/-- The function `collectionIn` finds the collection of a name among collections, or refuses a name
that there is not. -/
theorem collectionIn_allToValue (name : String) (cs : List (String × WorkingCollection)) :
    Operation.collectionIn name (WorkingCollection.allToValue cs) = match Entries.get? name cs with
      | some c => .ok c.toValue
      | none => refuse (.noCollection name) := by
  unfold Operation.collectionIn WorkingCollection.allToValue
  rw [Value.get_record, Entries.get?_mapValues]
  cases Entries.get? name cs with
  | some c => rfl
  | none => rfl

/-- Putting the value of a collection among those of others is putting the collection among them. -/
theorem withPart_allToValue (name : String) (c : WorkingCollection)
    (cs : List (String × WorkingCollection)) :
    withPart name c.toValue (WorkingCollection.allToValue cs)
      = WorkingCollection.allToValue (Entries.put name c cs) := by
  unfold WorkingCollection.allToValue
  rw [Value.withPart_record, Entries.put_mapValues]

/-- A change of the collection of a name is a change of the state, or it is refused if there is
none. -/
theorem does_inCollection {change : Change Refusal α}
    {P : WorkingCollection → α → WorkingCollection → Prop}
    (h : ∀ c, Entries.get? name w.collections = some c →
      Does WorkingCollection.toValue WorkingCollection.IsSound change c (P c)) :
    Does toValue IsSound (Operation.inCollection name change) w fun a w' =>
      ∃ c c', Entries.get? name w.collections = some c ∧ P c a c' ∧
        w' = { w with collections := Entries.put name c' w.collections } := by
  have hpart := collectionIn_allToValue name w.collections
  cases hget : Entries.get? name w.collections with
  | none =>
    rw [hget] at hpart
    exact (does_inCollections (P := fun _ _ => False)
      (Change.does_within_of_refused hpart (by simp))).mono fun a w' ⟨_, _, h, _⟩ => h.elim
  | some c =>
    rw [hget] at hpart
    refine (does_inCollections (Change.does_within (h c hget) hpart
      (fun hw => hw.all _ (Entries.mem_of_get? hget))
      (fun c' => withPart_allToValue name c' w.collections) fun c' hw hc' => hw.put hc')).mono ?_
    rintro a w' ⟨_, _, ⟨c', _, hpost, rfl⟩, rfl⟩
    exact ⟨c, c', rfl, hpost, rfl⟩

end Working

end SchemaForge
