import SchemaForge.Proofs.Schema.Reading
import SchemaForge.Proofs.Value.Entries

/-!
# What values describe

`Describes v a` says that a value describes an attribute, by the entries of the value and of its
parts alone: how the value is put together, as a tree or in a knot, does not matter. What is read of
a proper value is what it describes (`readsDescribed`, and for mappings of attributes
`describesAll_of_propertiesOfPart`). A proof about what was read of a value can so go by induction
over `Describes`, which has one case for each kind of attribute and none for links.
-/

namespace SchemaForge

/-- The attributes under the texts of the keys of their entries, of which later ones replace earlier
ones. -/
def attributesOf (ds : List ((Scalar × Value) × Attribute)) : List (String × Attribute) :=
  Entries.ofPairs (ds.map fun d => (d.1.1.text, d.2))

/-- The value `v` describes the attribute, by its entries and those of its parts. There is one case
for each kind of attribute, and none for links, which `entries?` has followed. -/
inductive Describes : Value → Attribute → Prop
  /-- A record, by what the entries of its properties describe. -/
  | record {v : Value} {es : List (Scalar × Value)} {ds : List ((Scalar × Value) × Attribute)}
      {optional : List String} (hv : v.entries? = some es)
      (ht : (fieldOf "type" es).same (.str "record") = true)
      (hp : (fieldOf "properties" es).entries?.getD [] = ds.map (·.1))
      (hd : ∀ d ∈ ds, Describes d.1.2 d.2)
      (ho : optionalKeys (fieldOf "optional" es) = .ok optional) :
      Describes v (.record (attributesOf ds) optional)
  /-- A set, by what its items describe. -/
  | set {v items : Value} {es : List (Scalar × Value)} {kind : Value} {o o' : Options}
      (hv : v.entries? = some es) (ht : (fieldOf "type" es).same (.str "set") = true)
      (hi : Value.field? "items" es = some items) (hd : Describes items (.primitive kind o))
      (ho : Options.ofValue (fieldOf "options" es) = .ok o') :
      Describes v (.set (.primitive kind o) o')
  /-- A relation, by its query. -/
  | relation {v c : Value} {es query : List (Scalar × Value)} (hv : v.entries? = some es)
      (ht : (fieldOf "type" es).same (.str "query") = true)
      (hq : (fieldOf "query" es).entries? = some query)
      (hc : (Value.field? "cardinality" es).getD (.str "many") = c)
      (hone : cardinalities.any c.same = true) :
      Describes v (.relation c (.str (fieldOf "collectionName" query).text)
        { condition := fieldOf "where" query
          limit := fieldOf "limit" query
          order := fieldOf "order" query })
  /-- An attribute of a primitive kind. -/
  | primitive {v : Value} {es : List (Scalar × Value)} {o : Options} (hv : v.entries? = some es)
      (hrecord : (fieldOf "type" es).same (.str "record") = false)
      (hset : (fieldOf "type" es).same (.str "set") = false)
      (hquery : (fieldOf "type" es).same (.str "query") = false)
      (ho : Options.ofValue (fieldOf "options" es) = .ok o) :
      Describes v (.primitive (.str (fieldOf "type" es).text) o)

/-- The entries of the value describe the attributes under the texts of their keys. A value without
entries describes none. -/
def DescribesAll (v : Value) (properties : List (String × Attribute)) : Prop :=
  ∃ ds : List ((Scalar × Value) × Attribute), v.entries?.getD [] = ds.map (·.1) ∧
    (∀ d ∈ ds, Describes d.1.2 d.2) ∧ properties = attributesOf ds

variable {v q : Value} {a a' : Attribute} {es : List (Scalar × Value)}
  {ps ps' : List (String × Attribute)}

/-! ## Entries and types -/

/-- A value has its entries in one way. -/
theorem entries_unique {es es' : List (Scalar × Value)} (h : v.entries? = some es)
    (h' : v.entries? = some es') : es = es' := by
  rw [h] at h'
  exact Option.some.inj h'

/-- A value is the same as one text only, so that an attribute has one type. -/
theorem type_unique {s t : String} (h : v.same (.str s) = true) (h' : v.same (.str t) = true) :
    s = t := by
  rw [Value.eq_str_of_same h] at h'
  cases Value.eq_str_of_same h'
  rfl

variable {nodes : List Value} {turns : ℕ} {key : Option String} {entries : List (Scalar × Value)}

/-! ## Parts of knots -/

namespace Value

/-- The part `p` of some nodes, or one of them, is `q` as a value of its own, and `q` is proper. -/
def StandsFor (nodes : List Value) (p q : Value) : Prop :=
  (IsPart nodes.length p ∧ q = p.within nodes) ∨ ∃ n, nodes[n]? = some p ∧ q = .knot n nodes

variable {p : Value} {n : ℕ}

/-- What is found among entries with values of their own is what is found among the entries, as a
value of its own. -/
theorem field?_entriesWithin (name : String) (entries : List (Scalar × Value)) :
    field? name (entriesWithin nodes entries) = (field? name entries).map (within nodes) := by
  unfold field?
  induction entries with
  | nil => rfl
  | cons e entries ih =>
    show Entries.get? _ ((e.1, within nodes e.2) :: entriesWithin nodes entries) = _
    rw [Entries.get?, Entries.get?, ih]
    split_ifs <;> rfl

/-- Entries with proper values stay as they are within the nodes of a knot, for `entriesWithin` only
resolves links. -/
theorem entriesWithin_eq (h : ∀ e ∈ entries, e.2.IsProper) (nodes : List Value) :
    entriesWithin nodes entries = entries :=
  map_eq_self fun e he => by rw [(h e he).within_eq]

/-- A mapping stands for a value with the same keys, whose entries have their links followed. -/
theorem StandsFor.entries? (hnodes : ∀ w ∈ nodes, IsNode nodes.length w)
    (h : StandsFor nodes (.mapping entries) q) :
    q.entries? = some (entriesWithin nodes entries) ∧
      ∀ e ∈ entries, IsPart nodes.length e.2 := by
  -- The value stands for itself, or a knot does whose node it is.
  rcases h with ⟨hpart, rfl⟩ | ⟨n, hn, rfl⟩
  · cases hpart with
    | leaf hleaf =>
      cases hleaf with
      | proper hproper =>
        cases hproper with
        | mapping h =>
          exact ⟨by rw [entriesWithin_eq h]; rfl, fun e he => .leaf (.proper (h e he))⟩
  · constructor
    · rw [Value.entries?, Value.unroll, List.getD_eq_getElem?_getD, hn, Option.getD_some]
    · cases hnodes _ (List.mem_of_getElem? hn) with
      | mapping h => exact h

/-- A link stands for what the node it leads to stands for. -/
theorem StandsFor.link {keyed : Bool} (hnodes : ∀ w ∈ nodes, IsNode nodes.length w)
    (h : StandsFor nodes (.link n keyed) q) (hn : nodes[n]? = some p) : StandsFor nodes p q := by
  rcases h with ⟨-, rfl⟩ | ⟨m, hm, rfl⟩
  · exact .inr ⟨n, hn, rfl⟩
  · cases hnodes _ (List.mem_of_getElem? hm)

/-- A knot stands for itself, and its node stands for it among the nodes of the knot. -/
theorem StandsFor.knot {nodes' : List Value} (hnodes : ∀ w ∈ nodes, IsNode nodes.length w)
    (h : StandsFor nodes (.knot n nodes') q) (hn : nodes'[n]? = some p) :
    (∀ w ∈ nodes', IsNode nodes'.length w) ∧ StandsFor nodes' p q := by
  rcases h with ⟨hpart, rfl⟩ | ⟨m, hm, rfl⟩
  · cases hpart with
    | leaf hleaf =>
      cases hleaf with
      | proper hproper => exact ⟨hproper.exists_node.1, .inr ⟨n, hn, rfl⟩⟩
  · cases hnodes _ (List.mem_of_getElem? hm)

/-- A knot that `StandsFor` a proper value has the node that it names. -/
theorem StandsFor.knot_ne_none {nodes' : List Value} (hnodes : ∀ w ∈ nodes, IsNode nodes.length w)
    (h : StandsFor nodes (.knot n nodes') q) : nodes'[n]? ≠ none := by
  rcases h with ⟨hpart, rfl⟩ | ⟨m, hm, rfl⟩
  · cases hpart with
    | leaf hleaf =>
      cases hleaf with
      | proper hproper =>
        obtain ⟨-, w, hw, -⟩ := hproper.exists_node
        rw [hw]
        exact Option.some_ne_none w
  · cases hnodes _ (List.mem_of_getElem? hm)

/-- A link that stands for a part of a knot leads to one of its nodes. -/
theorem StandsFor.link_ne_none {keyed : Bool} (hnodes : ∀ w ∈ nodes, IsNode nodes.length w)
    (h : StandsFor nodes (.link n keyed) q) : nodes[n]? ≠ none := by
  rcases h with ⟨hpart, rfl⟩ | ⟨m, hm, rfl⟩
  · cases hpart with
    | leaf hleaf =>
      cases hleaf with
      | link hn =>
        rw [List.getElem?_eq_getElem hn]
        exact Option.some_ne_none _
      | proper hproper => cases hproper
  · cases hnodes _ (List.mem_of_getElem? hm)

/-- A part that is no mapping, no knot and no link stands for a value without entries. -/
theorem StandsFor.entries?_eq_none (hp : p.IsOther) (h : StandsFor nodes p q) :
    q.entries? = none := by
  rcases h with ⟨-, rfl⟩ | ⟨n, hn, rfl⟩
  · cases p with
    | mapping entries => exact absurd rfl (hp.1 entries)
    | knot n nodes => exact absurd rfl (hp.2.1 n nodes)
    | link n keyed => exact absurd rfl (hp.2.2 n keyed)
    | _ => rfl
  · rw [Value.entries?, Value.unroll, List.getD_eq_getElem?_getD, hn, Option.getD_some]
    cases p with
    | mapping entries => exact absurd rfl (hp.1 entries)
    | knot n nodes => rfl
    | _ => rfl

end Value

/-! ## Readings are descriptions -/

section Reading

open Value (IsNode IsPart StandsFor)

/-- What is read of a part is what the value describes that it stands for. -/
def ReadsDescribed (nodes : List Value) (turns : ℕ) (key : Option String) (p : Value) : Prop :=
  (∀ w ∈ nodes, IsNode nodes.length w) → ∀ q, StandsFor nodes p q →
    ∀ a, attributeOfPart nodes turns key p = .ok a → Describes q a

/-- The attributes that are read of a part are those that the value describes that it stands for. -/
def ReadsAllDescribed (nodes : List Value) (turns : ℕ) (p : Value) : Prop :=
  (∀ w ∈ nodes, IsNode nodes.length w) → ∀ q, StandsFor nodes p q →
    ∀ ps, propertiesOfPart nodes turns p = .ok ps → DescribesAll q ps

/-- The attributes that are read of entries and put to others are these with those that the entries
describe. -/
def ReadsEntriesDescribed (nodes : List Value) (turns : ℕ) (entries : List (Scalar × Value))
    (done : List (String × Attribute)) : Prop :=
  (∀ w ∈ nodes, IsNode nodes.length w) → (∀ e ∈ entries, IsPart nodes.length e.2) →
    ∀ ps, propertiesOfEntries nodes turns entries done = .ok ps →
      ∃ ds : List ((Scalar × Value) × Attribute),
        Value.entriesWithin nodes entries = ds.map (·.1) ∧ (∀ d ∈ ds, Describes d.1.2 d.2) ∧
          ps = Entries.putAll done (ds.map fun d => (d.1.1.text, d.2))

/-- What is read of a mapping is what it describes, if that is so of its attributes and its items.
The cases are those of `attributeOfPart_mapping`. -/
theorem readsDescribed_mapping
    (hproperties : ∀ v, Value.field? "properties" entries = some v →
      ReadsAllDescribed nodes turns v)
    (hitems : ∀ v, Value.field? "items" entries = some v → ReadsDescribed nodes turns key v) :
    ReadsDescribed nodes turns key (.mapping entries) := by
  intro hnodes q hq a h
  obtain ⟨hv, hparts⟩ := hq.entries? hnodes
  have hfield : ∀ name v, Value.field? name entries = some v →
      StandsFor nodes v (v.within nodes) := by
    intro name v hv
    obtain ⟨k, hk⟩ := Entries.exists_mem_of_get? hv
    exact .inl ⟨hparts _ hk, rfl⟩
  -- Fields that hold attributes are parts of the nodes, and are read as such; all others are read
  -- as values of their own.
  rcases attributeOfPart_mapping h rfl with ⟨ht, ps, optional, hps, ho, rfl⟩ |
    ⟨ht, v, kind, o, o', hi, hv', ho, rfl⟩ | ⟨ht, h⟩ | ⟨hr, hs, hq, o, ho, rfl⟩
  · have hall : DescribesAll (fieldOf "properties" (Value.entriesWithin nodes entries)) ps := by
      rw [fieldOf, Value.field?_entriesWithin]
      cases hfound : Value.field? "properties" entries with
      | none =>
        rw [hfound] at hps
        cases hps
        exact ⟨[], rfl, fun _ hd => absurd hd List.not_mem_nil, rfl⟩
      | some v =>
        rw [hfound] at hps
        exact hproperties v hfound hnodes _ (hfield _ _ hfound) _ hps
    obtain ⟨ds, hds, hd, rfl⟩ := hall
    exact .record hv ht hds hd ho
  · refine .set hv ht ?_ (hitems v hi hnodes _ (hfield _ _ hi) _ hv') ho
    rw [Value.field?_entriesWithin, hi]
    rfl
  · obtain ⟨query, c, hquery, hc, hone, rfl⟩ := relationOfEntries_eq_ok h
    exact .relation hv ht hquery hc hone
  · exact .primitive hv hr hs hq ho

/-- The attributes that are read of a mapping are those that it describes, if that is so of its
entries. -/
theorem readsAllDescribed_mapping (hentries : ReadsEntriesDescribed nodes turns entries []) :
    ReadsAllDescribed nodes turns (.mapping entries) := by
  intro hnodes q hq ps h
  obtain ⟨hv, hparts⟩ := hq.entries? hnodes
  rw [propertiesOfPart] at h
  obtain ⟨ds, hds, hd, rfl⟩ := hentries hnodes hparts ps h
  exact ⟨ds, by rw [hv, Option.getD_some, hds], hd, rfl⟩

/-- What is read of one more entry is what it describes, put to what is there already. -/
theorem readsEntriesDescribed_cons (k : Scalar) {v : Value} {done : List (String × Attribute)}
    (hv : ReadsDescribed nodes turns (some k.text) v)
    (hentries : ∀ a, ReadsEntriesDescribed nodes turns entries (Entries.put k.text a done)) :
    ReadsEntriesDescribed nodes turns ((k, v) :: entries) done := by
  intro hnodes hparts ps h
  rw [propertiesOfEntries] at h
  obtain ⟨a, ha, h⟩ := Outcome.bind_eq_ok.mp h
  -- The entry is read as a part, and stands before those that are read after it.
  have hdescribes := hv hnodes _ (.inl ⟨hparts _ List.mem_cons_self, rfl⟩) a ha
  obtain ⟨ds, hds, hd, rfl⟩ :=
    hentries a hnodes (fun e he => hparts e (List.mem_cons_of_mem _ he)) ps h
  refine ⟨((k, v.within nodes), a) :: ds, ?_, ?_, rfl⟩
  · rw [List.map_cons, ← hds]
    rfl
  · intro d hmem
    rcases List.mem_cons.mp hmem with rfl | hmem
    · exact hdescribes
    · exact hd d hmem

/-- What is read of the parts of proper values is what they describe, by `reading_induct`. -/
theorem readsDescribed :
    (∀ nodes turns key p, ReadsDescribed nodes turns key p) ∧
      (∀ nodes turns p, ReadsAllDescribed nodes turns p) ∧
        ∀ nodes turns entries done, ReadsEntriesDescribed nodes turns entries done := by
  apply reading_induct
  case failed => exact fun _ _ _ _ hp _ _ _ a h => absurd h (hp a)
  case mapping => exact fun _ _ _ _ => readsDescribed_mapping
  case knot =>
    intro nodes turns key n nodes' p hn ih hnodes q hq a h
    obtain ⟨hnodes', hq'⟩ := hq.knot hnodes hn
    exact ih hnodes' q hq' a (attributeOfPart_knot hn ▸ h)
  case link =>
    intro nodes turns key n keyed p hn ih hnodes q hq a h
    exact ih hnodes q (hq.link hnodes hn) a (attributeOfPart_link hn ▸ h)
  case allFailed => exact fun _ _ _ hp _ _ _ ps h => absurd h (hp ps)
  case allMapping => exact fun _ _ _ => readsAllDescribed_mapping
  case allKnot =>
    intro nodes turns n nodes' p hn ih hnodes q hq ps h
    obtain ⟨hnodes', hq'⟩ := hq.knot hnodes hn
    exact ih hnodes' q hq' ps (propertiesOfPart_knot hn ▸ h)
  case allLink =>
    intro nodes turns n keyed p hn ih hnodes q hq ps h
    exact ih hnodes q (hq.link hnodes hn) ps (propertiesOfPart_link hn ▸ h)
  -- The knots and links of proper values have their nodes.
  case noKnot =>
    intro nodes turns n nodes' hn hnodes q hq ps h
    exact absurd hn (hq.knot_ne_none hnodes)
  case noLink =>
    intro nodes turns n keyed hn hnodes q hq ps h
    exact absurd hn (hq.link_ne_none hnodes)
  case other =>
    intro nodes turns p hp ht _ q hq ps h
    rw [propertiesOfPart_isOther hp, if_neg (Bool.eq_false_iff.mp ht)] at h
    cases h
    refine ⟨[], ?_, fun _ hd => absurd hd List.not_mem_nil, rfl⟩
    rw [hq.entries?_eq_none hp]
    rfl
  case nil =>
    intro nodes turns done _ _ ps h
    rw [propertiesOfEntries] at h
    cases h
    exact ⟨[], rfl, fun _ hd => absurd hd List.not_mem_nil, rfl⟩
  case cons => exact fun _ _ k _ _ _ => readsEntriesDescribed_cons k

/-- The attributes that are read of a proper value are those that it describes, so that proofs about
them may go by induction over `Describes`. -/
theorem describesAll_of_propertiesOfPart (hv : v.IsProper)
    (h : propertiesOfPart [] 0 v = .ok ps) : DescribesAll v ps :=
  readsDescribed.2.1 [] 0 v (fun _ hw => absurd hw List.not_mem_nil) v
    (.inl ⟨.leaf (.proper hv), (hv.within_eq []).symm⟩) ps h

end Reading

/-! ## Fields and keys -/

/-- The field of a name among entries with text keys is what `Entries.get?` finds, or the absent
value. -/
theorem fieldOf_textEntries (name : String) (fields : List (String × Value)) :
    fieldOf name (textEntries fields) = (Entries.get? name fields).getD .null := by
  rw [fieldOf, Value.field?, textEntries.get?]

/-- A list of texts is read as the optional keys that it has, each of them once. -/
theorem optionalKeys_texts (keys : List String) :
    optionalKeys (.list (keys.map .str)) = .ok keys.eraseDups := by
  have htexts : (keys.map Value.str).map Value.text = keys := by
    rw [List.map_map]
    exact List.map_id keys
  have hlist : optionalKeys (.list (keys.map .str))
      = .ok ((keys.map Value.str).map Value.text).eraseDups := by
    cases keys with
    | nil => rfl
    | cons key keys => rfl
  rw [hlist, htexts]

/-! ## Attributes under keys -/

/-- A field of a mapping of proper values is proper, also if it is absent. -/
theorem isProper_fieldOf (h : ∀ e ∈ es, e.2.IsProper) (name : String) :
    (fieldOf name es).IsProper := by
  unfold fieldOf
  cases hfound : Value.field? name es with
  | none => exact .scalar
  | some w =>
    obtain ⟨k, hk⟩ := Entries.exists_mem_of_get? hfound
    exact h _ hk

/-- The attributes that are read of a mapping have distinct keys, even if two of its keys have one
text. -/
theorem nodup_keys_attributesOf (ds : List ((Scalar × Value) × Attribute)) :
    (Entries.keys (attributesOf ds)).Nodup :=
  Entries.nodup_keys_putAll List.nodup_nil

/-- The entries of a proper value have proper values, also where they are paired with the attributes
that are read of them. -/
theorem isProper_of_mem_entries {ds : List ((Scalar × Value) × Attribute)} (hv : v.IsProper)
    (h : v.entries?.getD [] = ds.map (·.1)) {d : (Scalar × Value) × Attribute} (hd : d ∈ ds) :
    d.1.2.IsProper := by
  have hmem : d.1 ∈ v.entries?.getD [] := h ▸ List.mem_map_of_mem hd
  cases he : v.entries? with
  | none =>
    rw [he] at hmem
    cases hmem
  | some es =>
    rw [he] at hmem
    exact hv.of_entries? he _ hmem

end SchemaForge
