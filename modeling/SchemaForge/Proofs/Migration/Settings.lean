import SchemaForge.Proofs.Migration.Operation
import SchemaForge.Proofs.Migration.Reading

/-!
# Settings of attributes

What is read of an attribute whose settings were replaced. Attributes of a primitive kind and sets
have settings; what is read of a record or a relation stays the same.
-/

namespace SchemaForge

open Change (withPart)

/-! ## Settings -/

/-- The default that a value describes, and none if there is no value. -/
def IsDefaultOf : Option Value → Option Value → Prop
  | none, default => default = none
  | some v, default => ∃ d, defaultOfValue v = .ok d ∧ default = some d

/-- A value describes one default at most, so that `IsDefaultOf` determines what is read. -/
theorem IsDefaultOf.unique {v d d' : Option Value} (h : IsDefaultOf v d) (h' : IsDefaultOf v d') :
    d = d' := by
  cases v with
  | none => exact Eq.trans h (Eq.symm h')
  | some v =>
    obtain ⟨x, hx, rfl⟩ := h
    obtain ⟨x', hx', rfl⟩ := h'
    cases hx.symm.trans hx'
    rfl

/-- The settings that fields describe, each of them from the field of its name. -/
structure Options.IsReadOf (fields : List (String × Value)) (o : Options) : Prop where
  /-- Whether the attribute may be null. -/
  nullable : o.nullable = (Entries.get? "nullable" fields).getD .null
  /-- The default, if there is one. -/
  default : IsDefaultOf (Entries.get? "default" fields) o.default

/-- What `Options.ofValue` reads of fields are the settings that they describe. -/
theorem Options.isReadOf_of_ofValue {fields : List (String × Value)} {o : Options}
    (h : Options.ofValue (.record fields) = .ok o) : o.IsReadOf fields := by
  have hentries : entriesOf .options (.record fields) = .ok (textEntries fields) := rfl
  unfold Options.ofValue at h
  rw [if_neg (by exact Bool.false_ne_true), hentries, Outcome.ok_bind, fieldOf_textEntries,
    Value.field?, textEntries.get?] at h
  cases hdefault : Entries.get? "default" fields with
  | none =>
    rw [hdefault] at h
    cases h
    exact ⟨rfl, by rw [hdefault]; rfl⟩
  | some v =>
    rw [hdefault] at h
    obtain ⟨d, hd, h⟩ := Outcome.bind_eq_ok.mp h
    cases h
    exact ⟨rfl, by rw [hdefault]; exact ⟨d, hd, rfl⟩⟩

/-- An attribute with settings that are related to those of before by `P`. A record and a relation
have none and stay the same. -/
inductive Attribute.WithOptions (P : Options → Options → Prop) : Attribute → Attribute → Prop
  /-- An attribute of a primitive kind has settings. -/
  | primitive {kind : Value} {o o' : Options} (h : P o o') :
      WithOptions P (.primitive kind o) (.primitive kind o')
  /-- A set has settings. -/
  | set {items : Attribute} {o o' : Options} (h : P o o') :
      WithOptions P (.set items o) (.set items o')
  /-- A record stays the same. -/
  | record {properties : List (String × Attribute)} {optional : List String} :
      WithOptions P (.record properties optional) (.record properties optional)
  /-- A relation stays the same. -/
  | relation {cardinality target : Value} {query : Query} :
      WithOptions P (.relation cardinality target query) (.relation cardinality target query)

/-- With a weaker condition on the settings it is an attribute with other settings as well. -/
theorem Attribute.WithOptions.mono {P Q : Options → Options → Prop} {a a' : Attribute}
    (h : a.WithOptions P a') (hPQ : ∀ o o', P o o' → Q o o') : a.WithOptions Q a' := by
  cases h with
  | primitive h => exact .primitive (hPQ _ _ h)
  | set h => exact .set (hPQ _ _ h)
  | record => exact .record
  | relation => exact .relation

variable {v : Value} {fields new : List (String × Value)} {key : Option String}
  {a a' : Attribute}

/-- What is read of the settings of an attribute is read of the fields that operations find
there. -/
theorem isReadOf_of_hasOptions {vs : List (String × Value)} {o : Options}
    (hvs : ∀ f ∈ vs, f.2.IsKeyed) (hfields : Operation.HasOptions (.record vs) fields)
    (h : Options.ofValue (fieldOf "options" (textEntries vs)) = .ok o) : o.IsReadOf fields := by
  obtain ⟨w, hw, hfields⟩ := hfields
  rw [Value.get_record] at hw
  cases hw
  rw [fieldOf_textEntries] at h
  -- Settings that are null are none at all, and the operation takes them for an empty mapping.
  rcases Parameters.mappingOf_of_isKeyed (Value.isKeyed_getD hvs _) hfields with
    ⟨hnull, hempty⟩ | ⟨fs, hfs, heq, -, -⟩
  · rw [hnull] at h
    cases h
    rw [textEntries.eq_nil hempty]
    exact ⟨rfl, rfl⟩
  · rw [hfs] at h
    rw [textEntries.inj heq]
    exact Options.isReadOf_of_ofValue h

/-- Fields that agree in all but the settings are read as attributes that differ in their settings
only. The cases are those of `attributeOfFields`. -/
theorem withOptions_of_attributeOfFields {es es' : List (Scalar × Value)}
    {properties : Outcome Malformed (List (String × Attribute))}
    {items : Outcome Malformed Attribute}
    (hfield : ∀ name, name ≠ "options" → Value.field? name es' = Value.field? name es)
    (h : attributeOfFields es key properties items = .ok a)
    (h' : attributeOfFields es' key properties items = .ok a') :
    a.WithOptions (fun o o' => Options.ofValue (fieldOf "options" es) = .ok o ∧
      Options.ofValue (fieldOf "options" es') = .ok o') a' := by
  have hfieldOf : ∀ name, name ≠ "options" → fieldOf name es' = fieldOf name es := by
    intro name hname
    rw [fieldOf, fieldOf, hfield name hname]
  unfold attributeOfFields at h h'
  dsimp only at h h'
  rw [hfieldOf "type" (by decide), hfieldOf "optional" (by decide)] at h'
  -- The type is the same, and so is the case.
  split at h
  · cases h
  rename_i htype
  rw [if_neg htype] at h'
  split at h
  · rename_i hrecord
    rw [if_pos hrecord, h] at h'
    cases h'
    obtain ⟨ps, -, h⟩ := Outcome.bind_eq_ok.mp h
    obtain ⟨optional, -, h⟩ := Outcome.bind_eq_ok.mp h
    cases h
    exact .record
  rename_i hrecord
  rw [if_neg hrecord] at h'
  split at h
  · rename_i hset
    rw [if_pos hset] at h'
    obtain ⟨i, hi, h⟩ := Outcome.bind_eq_ok.mp h
    obtain ⟨i', hi', h'⟩ := Outcome.bind_eq_ok.mp h'
    obtain ⟨_, -, h⟩ := Outcome.bind_eq_ok.mp h
    obtain ⟨_, -, h'⟩ := Outcome.bind_eq_ok.mp h'
    obtain ⟨o, ho, h⟩ := Outcome.bind_eq_ok.mp h
    obtain ⟨o', ho', h'⟩ := Outcome.bind_eq_ok.mp h'
    cases hi.symm.trans hi'
    cases h
    cases h'
    exact .set ⟨ho, ho'⟩
  rename_i hset
  rw [if_neg hset] at h'
  split at h
  · rename_i hquery
    rw [if_pos hquery] at h'
    obtain ⟨query, c, hq, hc, -, rfl⟩ := relationOfEntries_eq_ok h
    obtain ⟨query', c', hq', hc', -, rfl⟩ := relationOfEntries_eq_ok h'
    rw [hfieldOf "query" (by decide)] at hq'
    rw [hfield "cardinality" (by decide)] at hc'
    cases hq.symm.trans hq'
    cases hc.symm.trans hc'
    exact .relation
  · rename_i hquery
    rw [if_neg hquery] at h'
    obtain ⟨o, ho, h⟩ := Outcome.bind_eq_ok.mp h
    obtain ⟨o', ho', h'⟩ := Outcome.bind_eq_ok.mp h'
    cases h
    cases h'
    exact .primitive ⟨ho, ho'⟩

/-- What is read of an attribute whose settings were replaced is the attribute that was read before,
with the settings of the new fields. -/
theorem withOptions_of_ofValue (hv : v.IsKeyed) (hfields : Operation.HasOptions v fields)
    (h : Attribute.ofValue key v = .ok a)
    (h' : Attribute.ofValue key (withPart "options" (.record new) v) = .ok a') :
    a.WithOptions (fun o o' => o.IsReadOf fields ∧ o'.IsReadOf new) a' := by
  obtain ⟨w, hw, -⟩ := id hfields
  obtain ⟨es, hes⟩ := Value.exists_entries?_of_get hw
  obtain ⟨vs, rfl, rfl, -, hvs⟩ := hv.exists_fields hes
  rw [Value.withPart_record] at h'
  have hwithin' : ∀ e ∈ textEntries (Entries.put "options" (.record new) vs),
      e.2.within [] = e.2 := by
    intro e he
    obtain ⟨f, hf, rfl⟩ := List.mem_map.mp he
    rcases Entries.mem_put hf with rfl | hf
    · rfl
    · exact (hvs f hf).within_eq []
  -- All fields besides the settings are the same in both mappings.
  have hfield : ∀ name, name ≠ "options" →
      Value.field? name (textEntries (Entries.put "options" (.record new) vs))
        = Value.field? name (textEntries vs) := by
    intro name hname
    rw [Value.field?, Value.field?, textEntries.get?, textEntries.get?,
      Entries.get?_put_of_ne hname]
  rw [Value.record_eq, ofValue_eq_attributeOfFields (Value.within_textEntries hvs)] at h
  rw [Value.record_eq, ofValue_eq_attributeOfFields hwithin', hfield "properties" (by decide),
    hfield "items" (by decide)] at h'
  refine (withOptions_of_attributeOfFields hfield h h').mono fun o o' ho => ?_
  refine ⟨isReadOf_of_hasOptions hvs hfields ho.1, Options.isReadOf_of_ofValue ?_⟩
  rw [← ho.2, fieldOf_textEntries, Entries.get?_put_self, Option.getD_some]

/-! ## Changes of settings -/

/-- Settings of which those that fields name are replaced by what these describe; the others
stay. -/
structure Options.Altered (changed : List (String × Value)) (o o' : Options) : Prop where
  /-- Whether the attribute may be null, if that is named. -/
  nullable : o'.nullable = (Entries.get? "nullable" changed).getD o.nullable
  /-- The default, if that is named. -/
  default : match Entries.get? "default" changed with
    | none => o'.default = o.default
    | some v => IsDefaultOf (some v) o'.default

/-- Settings without the one of a name. Of `nullable` and `default` the one that is named goes and
the other stays; any other name changes nothing. -/
structure Options.Unset (name : String) (o o' : Options) : Prop where
  /-- Nothing is said of whether the attribute may be null, if that is the name. -/
  nullable : o'.nullable = if name = "nullable" then .null else o.nullable
  /-- There is no default, if that is the name. -/
  default : o'.default = if name = "default" then none else o.default

variable {changed : List (String × Value)} {o o' : Options}

/-- Fields that are put into others alter the settings that are read of them, and no others. -/
theorem Options.IsReadOf.altered (h : o.IsReadOf fields)
    (hdistinct : (Entries.keys changed).Nodup)
    (h' : o'.IsReadOf (Entries.putAll fields changed)) : Options.Altered changed o o' := by
  have hnullable := h'.nullable
  have hdefault := h'.default
  rw [Entries.get?_putAll hdistinct] at hnullable hdefault
  constructor
  -- A setting that is given is the one that is read now; one that is not is read as before.
  · cases hget : Entries.get? "nullable" changed with
    | none =>
      rw [hget, Option.none_or] at hnullable
      rw [hnullable, h.nullable]
      rfl
    | some v =>
      rw [hget] at hnullable
      exact hnullable
  · cases hget : Entries.get? "default" changed with
    | none =>
      rw [hget, Option.none_or] at hdefault
      exact IsDefaultOf.unique hdefault h.default
    | some v =>
      rw [hget] at hdefault
      exact hdefault

/-- A field that is removed from others is a setting less, and no other setting changes. -/
theorem Options.IsReadOf.unset (h : o.IsReadOf fields) (hdistinct : (Entries.keys fields).Nodup)
    {name : String} (h' : o'.IsReadOf (Entries.remove name fields)) :
    Options.Unset name o o' := by
  have hnullable := h'.nullable
  have hdefault := h'.default
  constructor
  -- The setting that is taken away is read as missing, and the other one as before.
  · by_cases hname : name = "nullable"
    · rw [← hname, Entries.get?_remove_self hdistinct] at hnullable
      rw [hnullable, if_pos hname]
      rfl
    · rw [Entries.get?_remove_of_ne (Ne.symm hname)] at hnullable
      rw [hnullable, if_neg hname, h.nullable]
  · by_cases hname : name = "default"
    · rw [← hname, Entries.get?_remove_self hdistinct] at hdefault
      rw [if_pos hname]
      exact hdefault
    · rw [Entries.get?_remove_of_ne (Ne.symm hname)] at hdefault
      rw [if_neg hname]
      exact IsDefaultOf.unique hdefault h.default

end SchemaForge
