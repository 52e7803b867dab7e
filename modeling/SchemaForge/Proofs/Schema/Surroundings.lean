import SchemaForge.Proofs.Schema.Description
import SchemaForge.Proofs.Value.Access

/-!
# Readings and what surrounds them

A part of a knot is read among the nodes around it, and so many links may be followed at most. With
more links it is read in the same way, and a proper value is read in the same way among any nodes
(`readsAnywhere`). So a part is read as the value that it stands for, and what is read of a record
is read of its entries as values of their own (`exists_of_ofValue_record`). The other way round, a
record is read by its attributes where these stand in it as they are (`ofValue_of_isMadeOf`).
-/

namespace SchemaForge

namespace Outcome

variable {ε : Type u} {α β : Type v} {x y : Except ε α} {f g : α → Except ε β}

/-- If the first outcome has a result then the second one has the same. Errors need not be the same,
since a part may be refused for want of turns. -/
def IsKeptBy (x y : Except ε α) : Prop := ∀ a, x = .ok a → y = .ok a

/-- A sequence keeps the result of another one if it keeps those of both steps. -/
theorem IsKeptBy.bind (h : IsKeptBy x y) (hf : ∀ a, IsKeptBy (f a) (g a)) :
    IsKeptBy (x >>= f) (y >>= g) := by
  intro b hb
  obtain ⟨a, ha, hfa⟩ := bind_eq_ok.mp hb
  exact bind_eq_ok.mpr ⟨a, h a ha, hf a b hfa⟩

end Outcome

open Outcome (IsKeptBy)

variable {nodes nodes' : List Value} {turns turns' : ℕ} {key : Option String} {p q v : Value}
  {entries fields : List (Scalar × Value)} {a : Attribute} {ps : List (String × Attribute)}

/-! ## Mappings -/

/-- The function `attributeOfFields` keeps the result if the readings of the attributes and of the
items are kept. -/
theorem isKeptBy_attributeOfFields {P P' : Outcome Malformed (List (String × Attribute))}
    {I I' : Outcome Malformed Attribute} (hP : IsKeptBy P P') (hI : IsKeptBy I I') :
    IsKeptBy (attributeOfFields fields key P I) (attributeOfFields fields key P' I') := by
  have hrefl : ∀ {α : Type} (x : Outcome Malformed α), IsKeptBy x x := fun _ _ h => h
  unfold attributeOfFields
  dsimp only
  split
  · exact hrefl _
  split
  · exact hP.bind fun _ => hrefl _
  split
  · exact hI.bind fun _ => hrefl _
  · exact hrefl _

/-! ## Other nodes and more links -/

/-- A part that can be read among some nodes with some turns can also be read among others: it is a
proper value, or the nodes are the same and there are no fewer turns. -/
def FitsAlso (nodes : List Value) (turns : ℕ) (nodes' : List Value) (turns' : ℕ)
    (isProper : Prop) : Prop :=
  isProper ∨ (nodes' = nodes ∧ turns ≤ turns')

/-- A part is read in the same way among all nodes, and with all numbers of turns, that fit it
(`FitsAlso`). -/
def ReadsAnywhere (nodes : List Value) (turns : ℕ) (key : Option String) (p : Value) : Prop :=
  ∀ nodes' turns', FitsAlso nodes turns nodes' turns' p.IsProper →
    IsKeptBy (attributeOfPart nodes turns key p) (attributeOfPart nodes' turns' key p)

/-- The attributes in a part are read in the same way among all nodes, and with all numbers of
turns, that fit it. -/
def ReadsAllAnywhere (nodes : List Value) (turns : ℕ) (p : Value) : Prop :=
  ∀ nodes' turns', FitsAlso nodes turns nodes' turns' p.IsProper →
    IsKeptBy (propertiesOfPart nodes turns p) (propertiesOfPart nodes' turns' p)

/-- The attributes in entries are read in the same way among all nodes, and with all numbers of
turns, that fit them. -/
def ReadsEntriesAnywhere (nodes : List Value) (turns : ℕ) (entries : List (Scalar × Value))
    (done : List (String × Attribute)) : Prop :=
  ∀ nodes' turns', FitsAlso nodes turns nodes' turns' (∀ e ∈ entries, e.2.IsProper) →
    IsKeptBy (propertiesOfEntries nodes turns entries done)
      (propertiesOfEntries nodes' turns' entries done)

/-- The entries of a part that can be read among other nodes can be read there. -/
theorem FitsAlso.of_mapping
    (h : FitsAlso nodes turns nodes' turns' (Value.mapping entries).IsProper) :
    FitsAlso nodes turns nodes' turns' (∀ e ∈ entries, e.2.IsProper) := by
  refine h.imp_left fun hproper => ?_
  cases hproper with
  | mapping h => exact h

/-- A field of entries that can be read among other nodes can be read there. -/
theorem FitsAlso.field (h : FitsAlso nodes turns nodes' turns' (∀ e ∈ entries, e.2.IsProper))
    {name : String} (hv : Value.field? name entries = some v) :
    FitsAlso nodes turns nodes' turns' v.IsProper := by
  refine h.imp_left fun hproper => ?_
  obtain ⟨k, hk⟩ := Entries.exists_mem_of_get? hv
  exact hproper _ hk

/-- Entries that can be read among other nodes have the same values there. -/
theorem FitsAlso.entriesWithin_eq
    (h : FitsAlso nodes turns nodes' turns' (∀ e ∈ entries, e.2.IsProper)) :
    Value.entriesWithin nodes' entries = Value.entriesWithin nodes entries := by
  rcases h with hproper | ⟨rfl, -⟩
  · rw [Value.entriesWithin_eq hproper, Value.entriesWithin_eq hproper]
  · rfl

/-- A link fits the same nodes only, and leaves a turn less to both sides. -/
theorem FitsAlso.link {n : ℕ} {keyed : Bool}
    (h : FitsAlso nodes (turns + 1) nodes' turns' (Value.link n keyed).IsProper) :
    nodes' = nodes ∧ ∃ turns'', turns' = turns'' + 1 ∧ turns ≤ turns'' := by
  rcases h with hproper | ⟨rfl, hturns⟩
  · cases hproper
  · exact ⟨rfl, turns' - 1, by omega, by omega⟩

/-- A mapping is read in the same way everywhere if its attributes and its items are. -/
theorem readsAnywhere_mapping
    (hproperties : ∀ v, Value.field? "properties" entries = some v →
      ReadsAllAnywhere nodes turns v)
    (hitems : ∀ v, Value.field? "items" entries = some v → ReadsAnywhere nodes turns key v) :
    ReadsAnywhere nodes turns key (.mapping entries) := by
  intro nodes' turns' hfits
  have hentries := hfits.of_mapping
  rw [attributeOfPart_eq_attributeOfFields, attributeOfPart_eq_attributeOfFields,
    hentries.entriesWithin_eq]
  refine isKeptBy_attributeOfFields ?_ ?_
  · cases hv : Value.field? "properties" entries with
    | none => exact fun _ h => h
    | some v => exact hproperties v hv nodes' turns' (hentries.field hv)
  · cases hv : Value.field? "items" entries with
    | none => exact fun _ h => h
    | some v => exact hitems v hv nodes' turns' (hentries.field hv)

/-- Every part is read in the same way among all nodes, and with all numbers of turns, that fit it.
The induction is `reading_induct`; a knot begins anew with nodes and turns of its own. -/
theorem readsAnywhere :
    (∀ nodes turns key p, ReadsAnywhere nodes turns key p) ∧
      (∀ nodes turns p, ReadsAllAnywhere nodes turns p) ∧
        ∀ nodes turns entries done, ReadsEntriesAnywhere nodes turns entries done := by
  -- A knot brings its own nodes along, and a link is the only thing that depends on how many of
  -- them may be followed.
  apply reading_induct
  case failed => exact fun _ _ _ _ hp _ _ _ a h => absurd h (hp a)
  case mapping => exact fun _ _ _ _ => readsAnywhere_mapping
  case knot =>
    intro nodes turns key n inner p hn _ nodes' turns' _ a h
    rwa [attributeOfPart_knot hn] at h ⊢
  case link =>
    intro nodes turns key n keyed p hn ih nodes' turns' hfits a h
    obtain ⟨rfl, turns'', rfl, hturns⟩ := hfits.link
    rw [attributeOfPart_link hn] at h ⊢
    exact ih nodes' turns'' (.inr ⟨rfl, hturns⟩) a h
  case allFailed => exact fun _ _ _ hp _ _ _ ps h => absurd h (hp ps)
  case allMapping =>
    intro nodes turns entries ih nodes' turns' hfits ps h
    rw [propertiesOfPart] at h ⊢
    exact ih nodes' turns' hfits.of_mapping ps h
  case allKnot =>
    intro nodes turns n inner p hn _ nodes' turns' _ ps h
    rwa [propertiesOfPart_knot hn] at h ⊢
  case allLink =>
    intro nodes turns n keyed p hn ih nodes' turns' hfits ps h
    obtain ⟨rfl, turns'', rfl, hturns⟩ := hfits.link
    rw [propertiesOfPart_link hn] at h ⊢
    exact ih nodes' turns'' (.inr ⟨rfl, hturns⟩) ps h
  case noKnot =>
    intro nodes turns n inner hn nodes' turns' _ ps h
    rwa [propertiesOfPart_knot_none hn] at h ⊢
  case noLink =>
    intro nodes turns n keyed hn nodes' turns' hfits ps h
    obtain ⟨rfl, turns'', rfl, -⟩ := hfits.link
    rwa [propertiesOfPart_link_none hn] at h ⊢
  case other =>
    intro nodes turns p hp _ nodes' turns' _ ps h
    rwa [propertiesOfPart_isOther hp] at h ⊢
  case nil =>
    intro nodes turns done nodes' turns' _ ps h
    rw [propertiesOfEntries] at h ⊢
    exact h
  case cons =>
    intro nodes turns k v rest done ihv ihrest nodes' turns' hfits
    rw [propertiesOfEntries, propertiesOfEntries]
    refine IsKeptBy.bind (ihv nodes' turns' ?_) fun a => ihrest a nodes' turns' ?_
    · exact hfits.imp_left fun h => h _ List.mem_cons_self
    · exact hfits.imp_left fun h e he => h e (List.mem_cons_of_mem _ he)

/-! ## Parts as values of their own -/

section Parts

open Value (IsNode IsPart StandsFor)

variable (hturns : turns ≤ turnsOf nodes)

include hturns

/-- What is read of a part among its nodes is read of the value that it stands for, on its own. -/
theorem ofValue_of_standsFor (hq : StandsFor nodes p q) :
    IsKeptBy (attributeOfPart nodes turns key p) (Attribute.ofValue key q) := by
  intro a h
  rcases hq with ⟨hpart, rfl⟩ | ⟨n, hn, rfl⟩
  · cases hpart with
    | tuple hleaf =>
      rw [attributeOfPart_isOther Value.isOther_tuple] at h
      cases h
    | leaf hleaf =>
      cases hleaf with
      | @link _ n keyed hn =>
        have hnode := List.getElem?_eq_getElem hn
        cases turns with
        | zero =>
          rw [attributeOfPart] at h
          cases h
        | succ turns =>
          rw [attributeOfPart_link hnode] at h
          show attributeOfPart [] 0 key (.knot n nodes) = .ok a
          rw [attributeOfPart_knot hnode]
          -- A link takes one turn, and a knot has as many as it has nodes.
          exact readsAnywhere.1 nodes turns key _ nodes _ (.inr ⟨rfl, by omega⟩) a h
      | proper hproper =>
        rw [hproper.within_eq]
        exact readsAnywhere.1 nodes turns key p [] 0 (.inl hproper) a h
  · show attributeOfPart [] 0 key (.knot n nodes) = .ok a
    rw [attributeOfPart_knot hn]
    exact readsAnywhere.1 nodes turns key p nodes _ (.inr ⟨rfl, hturns⟩) a h

/-- The attributes that are read of a part among its nodes are read of the value that it stands
for. -/
theorem propertiesOfPart_of_standsFor (hq : StandsFor nodes p q) :
    IsKeptBy (propertiesOfPart nodes turns p) (propertiesOfPart [] 0 q) := by
  intro ps h
  rcases hq with ⟨hpart, rfl⟩ | ⟨n, hn, rfl⟩
  · cases hpart with
    | @tuple _ items hleaf =>
      rw [propertiesOfPart_isOther Value.isOther_tuple] at h
      show propertiesOfPart [] 0 (.tuple _) = .ok ps
      rw [propertiesOfPart_isOther Value.isOther_tuple]
      -- Only the empty tuple does not count as true, and it holds no attributes.
      cases items with
      | nil => exact h
      | cons i items => cases h
    | leaf hleaf =>
      cases hleaf with
      | @link _ n keyed hn =>
        have hnode := List.getElem?_eq_getElem hn
        cases turns with
        | zero =>
          rw [propertiesOfPart] at h
          cases h
        | succ turns =>
          rw [propertiesOfPart_link hnode] at h
          show propertiesOfPart [] 0 (.knot n nodes) = .ok ps
          rw [propertiesOfPart_knot hnode]
          exact readsAnywhere.2.1 nodes turns _ nodes _ (.inr ⟨rfl, by omega⟩) ps h
      | proper hproper =>
        rw [hproper.within_eq]
        exact readsAnywhere.2.1 nodes turns p [] 0 (.inl hproper) ps h
  · rw [propertiesOfPart_knot hn]
    exact readsAnywhere.2.1 nodes turns p nodes _ (.inr ⟨rfl, hturns⟩) ps h

/-- The attributes that are read of entries are read of their values, one by one, each on its
own. -/
theorem exists_read_of_propertiesOfEntries {done : List (String × Attribute)}
    (hentries : ∀ e ∈ entries, IsPart nodes.length e.2)
    (h : propertiesOfEntries nodes turns entries done = .ok ps) :
    ∃ ds : List ((Scalar × Value) × Attribute),
      Value.entriesWithin nodes entries = ds.map (·.1) ∧
        (∀ d ∈ ds, Attribute.ofValue (some d.1.1.text) d.1.2 = .ok d.2) ∧
          ps = Entries.putAll done (ds.map fun d => (d.1.1.text, d.2)) := by
  obtain ⟨ds, rfl, hd, rfl⟩ := propertiesOfEntries_eq_ok_iff.mp h
  refine ⟨ds.map fun d => ((d.1.1, d.1.2.within nodes), d.2), ?_, ?_, ?_⟩
  · rw [Value.entriesWithin, List.map_map, List.map_map]
    rfl
  · refine List.forall_mem_map.mpr fun d hmem => ?_
    exact ofValue_of_standsFor hturns (.inl ⟨hentries _ (List.mem_map_of_mem hmem), rfl⟩) _
      (hd d hmem)
  · rw [List.map_map]
    rfl

end Parts

/-! ## Mappings of any kind -/

namespace Value

/-- A mapping is made of entries whose links lead to some nodes: a tree has none, and a knot has its
own. -/
inductive IsMadeOf : Value → List Value → List (Scalar × Value) → Prop
  /-- A tree has no nodes. -/
  | mapping {entries : List (Scalar × Value)} : IsMadeOf (.mapping entries) [] entries
  /-- A node of a knot. -/
  | knot {n : ℕ} {nodes : List Value} {entries : List (Scalar × Value)}
      (hn : nodes[n]? = some (.mapping entries)) : IsMadeOf (.knot n nodes) nodes entries

/-- Every mapping is made of entries, its own or those of a node of a knot, in one of the ways of
`IsMadeOf`. -/
theorem exists_isMadeOf (h : v.isMapping = true) : ∃ nodes entries, IsMadeOf v nodes entries := by
  cases v with
  | mapping entries => exact ⟨[], entries, .mapping⟩
  | knot n nodes =>
    obtain ⟨entries, hn⟩ := exists_node_of_isMapping h
    exact ⟨nodes, entries, .knot hn⟩
  | _ => cases h

/-- A proper mapping stands for itself among its nodes, and these are as nodes should be. -/
theorem IsMadeOf.standsFor (h : IsMadeOf v nodes entries) (hv : v.IsProper) :
    (∀ w ∈ nodes, IsNode nodes.length w) ∧ StandsFor nodes (.mapping entries) v := by
  cases h with
  | mapping =>
    exact ⟨fun _ hw => absurd hw List.not_mem_nil, .inl ⟨.leaf (.proper hv), rfl⟩⟩
  | knot hn => exact ⟨hv.exists_node.1, .inr ⟨_, hn, rfl⟩⟩

/-- A mapping is read by its entries among its nodes, with as many turns as there can be. -/
theorem IsMadeOf.ofValue_eq (h : IsMadeOf v nodes entries) :
    Attribute.ofValue key v = attributeOfPart nodes (turnsOf nodes) key (.mapping entries) := by
  cases h with
  | mapping => rfl
  | knot hn => exact attributeOfPart_knot hn

/-- The attributes in a mapping are read by its entries, with as many links as there can be. -/
theorem IsMadeOf.propertiesOfPart_eq (h : IsMadeOf v nodes entries) :
    propertiesOfPart [] 0 v = propertiesOfEntries nodes (turnsOf nodes) entries [] := by
  have hmapping : propertiesOfPart nodes (turnsOf nodes) (.mapping entries)
      = propertiesOfEntries nodes (turnsOf nodes) entries [] := by
    rw [propertiesOfPart]
  rw [← hmapping]
  cases h with
  | mapping => rfl
  | knot hn => exact propertiesOfPart_knot hn

variable {n : ℕ} {name : String} {x : Value}

/-- Putting a part into a knot puts it into the node that the knot stands for, so that everything
that leads there has it. -/
theorem withPart_knot (hn : nodes[n]? = some (.mapping entries)) :
    Change.withPart name x (.knot n nodes)
      = .knot n (nodes.set n (.mapping (Entries.put (.str name) x entries))) := by
  have hchange : (Value.knot n nodes).changeEntries? (Entries.put (.str name) x)
      = some (.knot n (nodes.set n (.mapping (Entries.put (.str name) x entries)))) := by
    rw [changeEntries?, List.getD_eq_getElem?_getD, hn, Option.getD_some]
  rw [Change.withPart, put, hchange]

/-- A part that is put into a mapping with `withPart` is one of its entries, and of its nodes only
those change that are mappings. -/
theorem IsMadeOf.withPart (h : IsMadeOf v nodes entries) (name : String) (x : Value) :
    ∃ nodes', IsMadeOf (Change.withPart name x v) nodes' (Entries.put (.str name) x entries) ∧
      ∀ (m : ℕ) (items : List Value), nodes[m]? = some (.list items) →
        nodes'[m]? = some (.list items) := by
  cases h with
  | mapping => exact ⟨[], .mapping, fun _ _ hm => hm⟩
  | @knot n nodes entries hn =>
    have hlt : n < nodes.length := (List.getElem?_eq_some_iff.mp hn).1
    rw [withPart_knot hn]
    refine ⟨_, .knot (List.getElem?_set_self hlt), fun m items hm => ?_⟩
    have hne : n ≠ m := by
      rintro rfl
      cases hn.symm.trans hm
    rw [List.getElem?_set_ne hne, hm]

end Value

open Value (IsMadeOf)

variable {es : List (Scalar × Value)}

/-- What is read of a record is its tree: its attributes are read of the field `properties`, one by
one, and its optional keys of the field `optional`. -/
theorem exists_of_ofValue_record (hv : v.IsProper) (hes : v.entries? = some es)
    (htype : (fieldOf "type" es).same (.str "record") = true)
    (h : Attribute.ofValue key v = .ok a) :
    ∃ t : AttributeTree, a = t.toRecord ∧
      propertiesOfPart [] 0 (fieldOf "properties" es) = .ok t.properties ∧
        optionalKeys (fieldOf "optional" es) = .ok t.optional := by
  obtain ⟨nodes, entries, hmade⟩ := Value.exists_isMadeOf (Value.isMapping_of_entries? hes)
  obtain ⟨hnodes, hstands⟩ := hmade.standsFor hv
  obtain ⟨hentries, hparts⟩ := hstands.entries? hnodes
  cases hes.symm.trans hentries
  rw [hmade.ofValue_eq] at h
  -- Its type is that of a record, so it is read as nothing else.
  rcases attributeOfPart_mapping h rfl with
    ⟨-, ps, optional, hps, ho, rfl⟩ | ⟨hset, -⟩ | ⟨hquery, -⟩ | ⟨hrecord, -⟩
  · refine ⟨⟨ps, optional⟩, rfl, ?_, ho⟩
    rw [fieldOf, Value.field?_entriesWithin]
    cases hfield : Value.field? "properties" entries with
    | none =>
      rw [hfield] at hps
      cases hps
      exact propertiesOfPart_null
    | some w =>
      rw [hfield] at hps
      obtain ⟨k, hk⟩ := Entries.exists_mem_of_get? hfield
      exact propertiesOfPart_of_standsFor (Nat.le_refl _) (.inl ⟨hparts _ hk, rfl⟩) ps hps
  · exact absurd (type_unique htype hset) (by decide)
  · exact absurd (type_unique htype hquery) (by decide)
  · cases htype.symm.trans hrecord

/-- The attributes that are read of a mapping are read of its entries, one by one, as values of
their own. -/
theorem exists_read_of_propertiesOfPart (hv : v.IsProper) (hes : v.entries? = some es)
    (h : propertiesOfPart [] 0 v = .ok ps) : ∃ ds : List ((Scalar × Value) × Attribute),
      es = ds.map (·.1) ∧ (∀ d ∈ ds, Attribute.ofValue (some d.1.1.text) d.1.2 = .ok d.2) ∧
        ps = attributesOf ds := by
  obtain ⟨nodes, entries, hmade⟩ := Value.exists_isMadeOf (Value.isMapping_of_entries? hes)
  obtain ⟨hnodes, hstands⟩ := hmade.standsFor hv
  obtain ⟨hentries, hparts⟩ := hstands.entries? hnodes
  cases hes.symm.trans hentries
  rw [hmade.propertiesOfPart_eq] at h
  exact exists_read_of_propertiesOfEntries (Nat.le_refl _) hparts h

/-- A record is read by its attributes, which stand in it as they are, and by its optional keys.
This is the way back, from which a change of entries becomes a change of the attribute. -/
theorem ofValue_of_isMadeOf {fields : List (Scalar × Value)} {optional : List String}
    (hv : IsMadeOf v nodes entries)
    (htype : (fieldOf "type" (Value.entriesWithin nodes entries)).same (.str "record") = true)
    (hfields : Value.field? "properties" entries = some (.mapping fields))
    (hproper : ∀ e ∈ fields, e.2.IsProper)
    (hps : propertiesOfPart [] 0 (.mapping fields) = .ok ps)
    (ho : optionalKeys (fieldOf "optional" (Value.entriesWithin nodes entries)) = .ok optional) :
    Attribute.ofValue key v = .ok (.record ps optional) := by
  have hps' := readsAnywhere.2.1 [] 0 (.mapping fields) nodes (turnsOf nodes)
    (.inl (.mapping hproper)) ps hps
  have htruthy : (fieldOf "type" (Value.entriesWithin nodes entries)).isTruthy = true := by
    rw [Value.eq_str_of_same htype]
    rfl
  rw [hv.ofValue_eq, attributeOfPart_eq_attributeOfFields, hfields]
  unfold attributeOfFields
  dsimp only
  rw [htruthy, if_neg (by decide), if_pos htype]
  show (propertiesOfPart nodes (turnsOf nodes) (.mapping fields) >>= _) = _
  rw [hps', Outcome.ok_bind, ho]
  rfl

end SchemaForge
