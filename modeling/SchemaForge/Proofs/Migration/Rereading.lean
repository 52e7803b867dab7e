import SchemaForge.Proofs.Migration.Properness
import SchemaForge.Proofs.Migration.Reading

/-!
# Reading records in their normal form

A record is read by the texts of its keys, and these are the keys of its normal form. So the same
attribute is read of a record, of its normal form (`IsRecord.reads`), and of the mapping in which
the normal form is put (`IsRecord.ofValue_laidOver`), also when only the attributes are in their
normal form (`IsRecord.ofValue_halfNormal`). There is one exception, a record that lies within its
own optional keys: what is put into it shows in the texts of these keys. Optional keys that are
written out (`Value.IsWritten`) are not affected.
-/

namespace SchemaForge

open Change (withPart)
open Value (IsMadeOf)

variable {v v' p q o x : Value} {es es' entries : List (Scalar × Value)} {name key : String}
  {fields : List (String × Value)} {as : List (String × Attribute)} {a : Attribute}
  {n : WorkingRecord} {t : AttributeTree}

/-! ## Attributes under keys -/

/-- The attributes that are read of a proper value are those that are read of its entries as
`mappingOf` gives them. -/
theorem related_of_mappingOf (hp : p.IsProper)
    (hfields : Parameters.mappingOf name p = .ok (textEntries fields))
    (h : propertiesOfPart [] 0 p = .ok as) : Entries.Related IsReadAs fields as := by
  unfold Parameters.mappingOf at hfields
  split at hfields
  · rename_i hnull
    have hempty : fields = [] := textEntries.eq_nil (Except.ok.inj hfields).symm
    rw [Value.eq_null_of_isNull hnull, propertiesOfPart_null] at h
    rw [hempty, ← Except.ok.inj h]
    exact .nil
  · split at hfields
    · rename_i es hes
      obtain ⟨ds, rfl, hread, rfl⟩ := exists_read_of_propertiesOfPart hp hes h
      rw [Parameters.withTextKeys_eq] at hfields
      obtain rfl : Parameters.textFields (ds.map (·.1)) = fields :=
        textEntries.inj (Except.ok.inj hfields)
      -- equal texts meet on both sides, and the later value takes the place of the earlier one
      have hpairs : Entries.Related IsReadAs ((ds.map (·.1)).map fun e => (e.1.text, e.2))
          (ds.map fun d => (d.1.1.text, d.2)) := by
        rw [List.map_map]
        refine List.forall₂_map_left_iff.mpr (List.forall₂_map_right_iff.mpr ?_)
        exact List.forall₂_same.mpr fun d hd => ⟨rfl, hread d hd⟩
      have hnone : Entries.Related IsReadAs [] [] := .nil
      exact hnone.putAll hpairs
    · cases hfields

/-! ## Optional keys -/

namespace Value

/-- Optional keys that are written out: they are a tree, or a list of trees. Their texts do not
change when something is put into the record around them. -/
def IsWritten (o : Value) : Prop := o.IsTree ∨ ∃ items, o.listItems? = some items ∧
  ∀ i ∈ items, i.IsTree

/-- What is a tree among some nodes is the same tree among any others. -/
theorem within_of_isTree {nodes : List Value} (h : (p.within nodes).IsTree)
    (nodes' : List Value) : p.within nodes' = p.within nodes := by
  cases p with
  | link m keyed => cases h
  | tuple items =>
    -- An item that is followed to a tree was no link.
    have hitems : ∀ i ∈ items, i.follow nodes' = i.follow nodes := by
      cases h with
      | tuple h =>
        intro i hi
        have hi' := h _ (List.mem_map_of_mem hi)
        cases i with
        | link m keyed => cases hi'
        | _ => rfl
    exact congrArg Value.tuple (List.map_congr_left hitems)
  | _ => rfl

/-- The items of a list in a `knot` are parts of the same knot, from other nodes on. -/
theorem listItems?_knot {nodes parts : List Value} {m : ℕ} (hm : nodes[m]? = some (.list parts)) :
    (Value.knot m nodes).listItems? = some (parts.map (Value.within nodes)) := by
  rw [listItems?, Value.unroll, List.getD_eq_getElem?_getD, hm, Option.getD_some]

/-- Optional keys that are written out are the same among other nodes in which all lists are the
same. -/
theorem IsWritten.within {nodes nodes' : List Value} (hnodes : ∀ w ∈ nodes, IsNode nodes.length w)
    (hp : IsPart nodes.length p) (hwritten : (p.within nodes).IsWritten)
    (hlists : ∀ (m : ℕ) (parts : List Value), nodes[m]? = some (.list parts) →
      nodes'[m]? = some (.list parts)) :
    p.within nodes' = p.within nodes ∨ ∃ items,
      (p.within nodes').listItems? = some items ∧ (p.within nodes).listItems? = some items := by
  rcases hwritten with htree | ⟨items, hitems, htrees⟩
  · exact .inl (within_of_isTree htree nodes')
  -- A tuple stands where it is and a proper value has no links; so the other nodes only matter for
  -- a list that a link leads to.
  cases hp with
  | @tuple _ parts hparts =>
    have htuple : ((Value.tuple parts).within nodes).IsTree := by
      obtain rfl : parts.map (follow nodes) = items := Option.some.inj hitems
      exact .tuple htrees
    exact .inl (within_of_isTree htuple nodes')
  | leaf hleaf =>
    cases hleaf with
    | proper hproper => exact .inl (by rw [hproper.within_eq, hproper.within_eq])
    | @link _ m keyed hm =>
      have hnode := List.getElem?_eq_getElem hm
      have hkind := hnodes nodes[m] (List.getElem_mem hm)
      generalize nodes[m] = node at hnode hkind
      cases hkind with
      | mapping =>
        have hnone : (Value.knot m nodes).listItems? = none := by
          rw [listItems?, Value.unroll, List.getD_eq_getElem?_getD, hnode, Option.getD_some]
        cases hnone.symm.trans hitems
      | @list _ parts =>
        obtain rfl : parts.map (Value.within nodes) = items :=
          Option.some.inj ((listItems?_knot hnode).symm.trans hitems)
        have hsame : parts.map (Value.within nodes') = parts.map (Value.within nodes) :=
          List.map_congr_left fun part hpart =>
            within_of_isTree (htrees _ (List.mem_map_of_mem hpart)) nodes'
        refine .inr ⟨parts.map (Value.within nodes), ?_, hitems⟩
        rw [← hsame]
        exact listItems?_knot (hlists m parts hnode)

end Value

/-- A part that is put into a proper mapping, under another name, leaves optional keys that are
written out as they are. -/
theorem optionalKeys_withPart (hv : v.IsProper) (hes : v.entries? = some es)
    (hwritten : (fieldOf "optional" es).IsWritten) (hname : name ≠ "optional")
    (hes' : (withPart name x v).entries? = some es') (hv' : (withPart name x v).IsProper) :
    optionalKeys (fieldOf "optional" es') = optionalKeys (fieldOf "optional" es) := by
  obtain ⟨nodes, entries, hmade⟩ := Value.exists_isMadeOf (Value.isMapping_of_entries? hes)
  obtain ⟨nodes', hmade', hlists⟩ := hmade.withPart name x
  obtain ⟨hnodes, hstands⟩ := hmade.standsFor hv
  obtain ⟨hentries, hparts⟩ := hstands.entries? hnodes
  obtain ⟨hnodes', hstands'⟩ := hmade'.standsFor hv'
  obtain ⟨hentries', -⟩ := hstands'.entries? hnodes'
  cases hes.symm.trans hentries
  cases hes'.symm.trans hentries'
  -- The part is put under another key: under this one are the same entries among other nodes.
  have hother : Value.field? "optional" (Entries.put (.str name) x entries)
      = Value.field? "optional" entries :=
    Entries.get?_put_of_disagree (fun j hj => Scalar.beq_str_of_ne hname hj)
      (Scalar.beq_str_of_ne hname (Scalar.str_beq_self name))
  rw [fieldOf, Value.field?_entriesWithin] at hwritten
  rw [fieldOf, fieldOf, Value.field?_entriesWithin, Value.field?_entriesWithin, hother]
  cases hfield : Value.field? "optional" entries with
  | none => rfl
  | some p =>
    rw [hfield, Option.map_some, Option.getD_some] at hwritten
    obtain ⟨k, hk⟩ := Entries.exists_mem_of_get? hfield
    rw [Option.map_some, Option.map_some, Option.getD_some, Option.getD_some]
    rcases hwritten.within hnodes (hparts _ hk) hlists with hsame | ⟨items, hitems', hitems⟩
    · rw [hsame]
    · rw [optionalKeys, optionalKeys, Value.elements_orElse_tuple hitems',
        Value.elements_orElse_tuple hitems]

/-! ## Normal forms -/

section NormalForm

variable {r : WorkingRecord}

/-- A record in a mapping: a proper mapping of the type of records, with its entries. -/
structure IsRecord (v : Value) (es : List (Scalar × Value)) : Prop where
  /-- It is proper. -/
  proper : v.IsProper
  /-- It is a mapping. -/
  entries : v.entries? = some es
  /-- Its type is that of records. -/
  type : (fieldOf "type" es).same (.str "record") = true

/-- A mapping stays a record when any part of it but its type is replaced. -/
theorem IsRecord.withPart (h : IsRecord v es) (name : String) (hname : name ≠ "type")
    (hx : x.IsProper) : ∃ es', IsRecord (withPart name x v) es' := by
  have hmapping := Value.isMapping_withPart (Value.isMapping_of_entries? h.entries) name x
  obtain ⟨es', hes'⟩ := Value.exists_entries? hmapping
  exact ⟨es', h.proper.withPart hx name, hes',
    (type_withPart h.entries hname hes' "record").trans h.type⟩

/-- A record is read by its attributes where these stand in it as they are, and by its optional
keys. -/
theorem IsRecord.ofValue_of_properties (h : IsRecord v es) {nodes : List Value}
    (hmade : IsMadeOf v nodes entries)
    (hfields : Value.field? "properties" entries = some (.record fields))
    (hdistinct : (Entries.keys fields).Nodup) (hproper : ∀ f ∈ fields, f.2.IsProper)
    (hps : Entries.Related IsReadAs fields t.properties)
    (ho : optionalKeys (fieldOf "optional" es) = .ok t.optional) (key : Option String) :
    Attribute.ofValue key v = .ok t.toRecord := by
  obtain ⟨hnodes, hstands⟩ := hmade.standsFor h.proper
  obtain ⟨hentries, -⟩ := hstands.entries? hnodes
  have hes := h.entries
  have htype := h.type
  -- The entries are those that the record has been unrolled to.
  cases hes.symm.trans hentries
  rw [Value.record_eq] at hfields
  refine ofValue_of_isMadeOf hmade htype hfields ?_
    ((propertiesOfPart_record_iff hdistinct).mpr hps) ho
  intro e he
  obtain ⟨f, hf, rfl⟩ := List.mem_map.mp he
  exact hproper f hf

/-- The normal form of a record has the attributes and the optional keys that are read of the record
itself. -/
theorem IsRecord.reads (h : IsRecord v es) (hwritten : (fieldOf "optional" es).IsWritten)
    (hn : Operation.NormalForm v n) {key : Option String} (ha : Attribute.ofValue key v = .ok a) :
    ∃ t, a = t.toRecord ∧ Reads n t := by
  obtain ⟨t, rfl, hps, ho⟩ := exists_of_ofValue_record h.proper h.entries h.type ha
  have hproper := hn.isProper h.proper
  obtain ⟨-, p, o, hp, hproperties, ho', hoptional⟩ := hn
  rw [Value.get_of_entries? "properties" h.entries] at hp
  obtain rfl : fieldOf "properties" es = p := Except.ok.inj hp
  -- the optional keys are looked up after the attributes are written
  obtain ⟨es', hrecord'⟩ := h.withPart "properties" (by decide)
    (Value.isProper_record hproper)
  rw [Value.get_of_entries? "optional" hrecord'.entries] at ho'
  obtain rfl : fieldOf "optional" es' = o := Except.ok.inj ho'
  have hkeys := Parameters.optionalKeys_of_keysOf hoptional
  rw [optionalKeys_withPart h.proper h.entries hwritten (by decide) hrecord'.entries
    hrecord'.proper, ho] at hkeys
  have hfields := isProper_fieldOf (h.proper.of_entries? h.entries) "properties"
  exact ⟨t, rfl, related_of_mappingOf hfields hproperties hps, Except.ok.inj hkeys⟩

/-- A mapping into which a record is put is read as this record, whatever it was before. -/
theorem IsRecord.ofValue_laidOver (h : IsRecord v es) (hdistinct : n.IsSound)
    (hproper : n.IsProper) (hreads : Reads n t) (key : Option String) :
    Attribute.ofValue key (n.laidOver v) = .ok t.toRecord := by
  have hps := Value.isProper_record hproper
  have hkeys := Value.isProper_texts n.optional
  -- The two parts are written over the old value one after the other; it stays a record throughout.
  obtain ⟨es', hrecord'⟩ := h.withPart "properties" (by decide) hps
  obtain ⟨es'', hrecord''⟩ := hrecord'.withPart "optional" (by decide) hkeys
  obtain ⟨nodes, entries, hmade⟩ :=
    Value.exists_isMadeOf (Value.isMapping_of_entries? h.entries)
  obtain ⟨nodes', hmade', -⟩ := hmade.withPart "properties" (.record n.properties)
  obtain ⟨nodes'', hmade'', -⟩ := hmade'.withPart "optional" (.list (n.optional.map .str))
  refine hrecord''.ofValue_of_properties hmade'' ?_ hdistinct hproper hreads.properties ?_ key
  · rw [Value.field?, Entries.get?_put_of_disagree
      (fun j hj => Scalar.beq_str_of_ne (by decide) hj)
      (Scalar.beq_str_of_ne (by decide) (Scalar.str_beq_self "optional")),
      Entries.get?_put (Scalar.str_beq_self "properties")]
  · have hget := WorkingRecord.get_optional_laidOver (r := n)
      (Value.isMapping_of_entries? h.entries)
    rw [WorkingRecord.laidOver, Value.get_of_entries? "optional" hrecord''.entries] at hget
    have hfield : fieldOf "optional" es'' = .list (n.optional.map .str) := Except.ok.inj hget
    rw [hfield, optionalKeys_texts, hreads.optional]

/-- What is left of a record, where bringing it into its normal form stops, is read as the record
was before. -/
theorem IsRecord.ofValue_halfNormal (h : IsRecord v es)
    (hwritten : (fieldOf "optional" es).IsWritten) (hhalf : Operation.HalfNormal v v')
    {key : Option String} (ha : Attribute.ofValue key v = .ok a) :
    Attribute.ofValue key v' = .ok a := by
  cases hhalf with
  | untouched => exact ha
  | @properties p fields hp hfields =>
    -- The attributes are written anew, under texts, and read as before; the optional keys stay.
    obtain ⟨t, rfl, hps, ho⟩ := exists_of_ofValue_record h.proper h.entries h.type ha
    have hproper := Parameters.isProper_of_mappingOf (h.proper.of_get hp) hfields
    obtain ⟨es', hrecord'⟩ := h.withPart "properties" (by decide)
      (Value.isProper_record hproper)
    obtain ⟨nodes, entries, hmade⟩ :=
      Value.exists_isMadeOf (Value.isMapping_of_entries? h.entries)
    obtain ⟨nodes', hmade', -⟩ := hmade.withPart "properties" (.record fields)
    rw [Value.get_of_entries? "properties" h.entries] at hp
    obtain rfl : fieldOf "properties" es = p := Except.ok.inj hp
    obtain ⟨_, hdistinct, heq⟩ := Parameters.exists_fields_of_mappingOf hfields
    obtain rfl := textEntries.inj heq
    have hread := related_of_mappingOf
      (isProper_fieldOf (h.proper.of_entries? h.entries) "properties") hfields hps
    refine hrecord'.ofValue_of_properties hmade' ?_ hdistinct hproper hread ?_ key
    · exact Entries.get?_put (Scalar.str_beq_self "properties")
    · rw [optionalKeys_withPart h.proper h.entries hwritten (by decide) hrecord'.entries
        hrecord'.proper, ho]

/-- A record that is the list of its own optional keys gets another one with its attributes. -/
example :
    let own : Value := .knot 0 [.record [("type", .str "record"), ("optional", .link 0 true)]]
    Attribute.ofValue none own = .ok (.record [] ["type", "optional"]) ∧
      Attribute.ofValue none (withPart "properties" (.record []) own)
        = .ok (.record [] ["type", "optional", "properties"]) := by
  cbv

end NormalForm

/-! ## A record that is one of its own optional keys -/

/-- The lists and mappings of such a record: the record, and the list of its optional keys. -/
def selfNamingNodes : List Value :=
  [.record [("type", .str "record"), ("optional", .link 1 false)], .list [.link 0 true]]

/-- A record that is one of its own optional keys. This key is the text of the record, which shows
all that the record holds. -/
def selfNaming : Value := .knot 0 selfNamingNodes

/-- The text of `selfNaming`, which is its own optional key. Dots stand where the record is met
again within itself. -/
def selfText : String := "\x7b'type': 'record', 'optional': [\x7b...\x7d]\x7d"

/-- What becomes of `selfNaming` when it gets a mapping of attributes: its optional key is now the
text with these in it. -/
def selfNamed (properties : List (String × Value)) : Value :=
  .knot 0 [.record [("type", .str "record"),
    ("optional", .list
      [.str "\x7b'type': 'record', 'optional': [\x7b...\x7d], 'properties': \x7b\x7d\x7d"]),
    ("properties", .record properties)], .list [.link 0 true]]

/-- The list of `selfNaming` has one key, and it is the text of the record that the list is in. -/
theorem optionalKeys_selfNaming : optionalKeys (.knot 1 selfNamingNodes) = .ok [selfText] := by
  have htext : selfNaming.text = selfText := by decide
  show Except.ok [selfNaming.text] = _
  rw [htext]

/-- The record `selfNaming` is read as one without attributes, with `selfText` as its one optional
key. -/
theorem ofValue_selfNaming (key : Option String) :
    Attribute.ofValue key selfNaming = .ok (.record [] [selfText]) := by
  have hnode : selfNamingNodes[0]?
      = some (.record [("type", .str "record"), ("optional", .link 1 false)]) := rfl
  have hoptional : fieldOf "optional" (Value.entriesWithin selfNamingNodes
      (textEntries [("type", .str "record"), ("optional", .link 1 false)]))
        = .knot 1 selfNamingNodes := rfl
  rw [Attribute.ofValue, selfNaming, attributeOfPart_knot hnode, Value.record_eq,
    attributeOfPart_eq_attributeOfFields]
  unfold attributeOfFields
  rw [hoptional, optionalKeys_selfNaming]
  rfl

end SchemaForge
