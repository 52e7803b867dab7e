import SchemaForge.Proofs.Migration.Failure
import SchemaForge.Proofs.Migration.Reading

/-!
# Optional keys have attributes

Whether an attribute is optional is written in the record around it (section 6.1 of the
specification), and so it could stay there when the attribute is gone, and meet another attribute of
that name later. It never does: if all records that steps are given are tidy, which is to say that
their optional keys are keys of their attributes, then so are all records in a state, at any depth
(`no_dangling_optional`). An operation keeps records tidy where it succeeds (`Operation.Leads`) and
also what it leaves of them where it fails (`Operation.Abandons`), and both are seen on the records
along a path (`ChangedAt.isTidy`, `Settles.isTidy`).

A record that occurs within itself is not tidy. It may have optional keys of its own
(`Value.NamesOwnKeys`, which for trees is all that tidiness asks for: `Value.IsTree.isTidy`) and
still get an attribute that has not, where its settings are altered (`exists_dangling_optional`).
-/

namespace SchemaForge

open Change (withPart FailsTo)

variable {v v' x : Value} {es : List (Scalar × Value)} {name key : String} {keys : List String}
  {fields : List (String × Value)}

/-! ## Fields of mappings -/

/-- The field of a name is what has just been put under it. -/
theorem fieldOf_put_self : fieldOf name (Entries.put (.str name) x es) = x := by
  rw [fieldOf, Value.field?, Entries.get?_put (Scalar.str_beq_self name), Option.getD_some]

/-- Under other names nothing changes when a part is put into a mapping. -/
theorem fieldOf_put_of_ne {other : String} (h : name ≠ other) :
    fieldOf other (Entries.put (.str name) x es) = fieldOf other es := by
  rw [fieldOf, Value.field?, Entries.get?_put_of_disagree
    (fun j hj => Scalar.beq_str_of_ne h hj)
    (Scalar.beq_str_of_ne h (Scalar.str_beq_self name))]
  rfl

/-- A part put into a mapping, other than its type, does not change whether it is of a type. -/
theorem type_withPart {es' : List (Scalar × Value)} (hes : v.entries? = some es)
    (hname : name ≠ "type") (hes' : (withPart name x v).entries? = some es') (s : String) :
    (fieldOf "type" es').same (.str s) = (fieldOf "type" es).same (.str s) := by
  -- A mapping and a knot are both assembled of entries, among which only the one of the name
  -- differs.
  obtain ⟨f, es₀, hf, rfl⟩ := Value.exists_assembles (Value.isMapping_of_entries? hes)
  obtain ⟨g, -, hg, hentries⟩ := hf.entries es₀
  obtain ⟨g', -, hg', hentries'⟩ := hf.entries (Entries.put (.str name) x es₀)
  rw [hf.withPart, hentries'] at hes'
  rw [hentries] at hes
  rw [← Option.some.inj hes, ← Option.some.inj hes', fieldOf, fieldOf, Value.field?, Value.field?,
    Entries.get?_mapValues, Entries.get?_mapValues,
    Entries.get?_put_of_disagree (fun j hj => Scalar.beq_str_of_ne hname hj)
      (Scalar.beq_str_of_ne hname (Scalar.str_beq_self name))]
  cases Entries.get? (Scalar.str "type") es₀ with
  | none => rfl
  | some y =>
    rw [Option.map_some, Option.map_some, Option.getD_some, Option.getD_some, hg, hg']

/-- The keys that `mappingOf` takes of a mapping are the texts of its keys, and each has a value of
the mapping. -/
theorem Parameters.mem_of_mappingOf (h : mappingOf name v = .ok (textEntries fields)) :
    (∀ e ∈ v.entries?.getD [], e.1.text ∈ Entries.keys fields) ∧
      ∀ f ∈ fields, ∃ e ∈ v.entries?.getD [], f = (e.1.text, e.2) := by
  unfold mappingOf at h
  split at h
  · rename_i hnull
    rw [Value.eq_null_of_isNull hnull, textEntries.eq_nil (Except.ok.inj h).symm]
    exact ⟨fun _ h => absurd h List.not_mem_nil, fun _ h => absurd h List.not_mem_nil⟩
  -- Null stands for no entries, a mapping has them, and everything else is refused.
  · split at h
    · rename_i entries hentries
      rw [withTextKeys_eq] at h
      rw [hentries, ← textEntries.inj (Except.ok.inj h), Option.getD_some]
      refine ⟨fun e he => Entries.mem_keys_putAll.mpr (.inr ?_), fun f hf => ?_⟩
      · exact List.mem_map.mpr ⟨_, List.mem_map.mpr ⟨e, he, rfl⟩, rfl⟩
      rcases Entries.mem_putAll hf with hnil | hmem
      · exact absurd hnil List.not_mem_nil
      · obtain ⟨e, he, rfl⟩ := List.mem_map.mp hmem
        exact ⟨e, he, rfl⟩
    · cases h

/-! ## Records in trees -/

/-- If all values of entries are trees, so is the field of a name: the absent value is one too. -/
theorem Value.isTree_fieldOf (h : ∀ e ∈ es, e.2.IsTree) (name : String) :
    (fieldOf name es).IsTree := by
  unfold fieldOf
  cases hfield : Value.field? name es with
  | none => exact .scalar
  | some w =>
    obtain ⟨k, hk⟩ := Entries.exists_mem_of_get? hfield
    exact h _ hk

/-- Induction on trees along their records: what holds of trees that are no records, and of a record
if it holds of its attributes, holds of all trees. -/
theorem Value.IsTree.record_induct {P : Value → Prop}
    (other : ∀ v : Value, v.IsTree →
      (∀ es, v.entries? = some es → (fieldOf "type" es).same (.str "record") = false) → P v)
    (record : ∀ es, (∀ e ∈ es, e.2.IsTree) → (fieldOf "type" es).same (.str "record") = true →
      (∀ e ∈ (fieldOf "properties" es).entries?.getD [], P e.2) → P (.mapping es))
    (h : v.IsTree) : P v := by
  -- the attributes of a record lie two levels below it, so the entries are taken along
  have hboth : P v ∧ ∀ e ∈ v.entries?.getD [], P e.2 := by
    induction h with
    | @mapping entries htrees ih =>
      refine ⟨?_, fun e he => (ih e he).1⟩
      cases htype : (fieldOf "type" entries).same (.str "record") with
      | false =>
        refine other _ (.mapping htrees) fun es hes => ?_
        cases hes
        exact htype
      | true =>
        refine record entries htrees htype ?_
        unfold fieldOf
        cases hfield : Value.field? "properties" entries with
        | none => exact fun e he => absurd he List.not_mem_nil
        | some w =>
          obtain ⟨k, hk⟩ := Entries.exists_mem_of_get? hfield
          exact (ih _ hk).2
    | _ =>
      refine ⟨other _ (by constructor <;> assumption) fun es hes => ?_,
        fun e he => absurd he List.not_mem_nil⟩
      cases hes
  exact hboth.1

/-! ## Tidy records -/

/-- The optional keys in a value, if it is a list, are among the texts of the keys of a mapping. -/
def NamesKeysOf (optional properties : Value) : Prop :=
  ∃ keys, Parameters.keysOf "optional" optional = .ok keys ∧
    ∀ key ∈ keys, key ∈ (properties.entries?.getD []).map (·.1.text)

/-- The optional keys of every record in a value, at any depth, are keys of its attributes. A record
that lies within itself is not tidy: it may be its own mapping of attributes, and then what it gets
as settings would become one of them. -/
inductive Value.IsTidy : Value → Prop
  /-- What is no record has no optional keys. -/
  | other {v : Value}
      (h : ∀ es, v.entries? = some es → (fieldOf "type" es).same (.str "record") = false) :
      IsTidy v
  /-- The optional keys of a record are keys of its attributes, which are tidy. -/
  | record {es : List (Scalar × Value)}
      (hnames : NamesKeysOf (fieldOf "optional" es) (fieldOf "properties" es))
      (hall : ∀ e ∈ (fieldOf "properties" es).entries?.getD [], IsTidy e.2) :
      IsTidy (.mapping es)

/-- The values that a value leads to: itself, and what the attributes of a record lead to. A record
that occurs within itself leads back to itself. -/
inductive Value.LeadsTo (v : Value) : Value → Prop
  /-- The value itself. -/
  | self : LeadsTo v v
  /-- An attribute of a record. -/
  | further {u : Value} {es : List (Scalar × Value)} {e : Scalar × Value} (h : LeadsTo v u)
      (hes : u.entries? = some es) (htype : (fieldOf "type" es).same (.str "record") = true)
      (he : e ∈ (fieldOf "properties" es).entries?.getD []) : LeadsTo v e.2

/-- The optional keys of every record that a value leads to are keys of its attributes, whether or
not the record lies within itself. -/
def Value.NamesOwnKeys (v : Value) : Prop :=
  ∀ u es, v.LeadsTo u → u.entries? = some es →
    (fieldOf "type" es).same (.str "record") = true →
      NamesKeysOf (fieldOf "optional" es) (fieldOf "properties" es)

/-- A tidy value leads to tidy values only, since tidiness holds at every depth. -/
theorem Value.IsTidy.of_leadsTo {u : Value} (h : v.IsTidy) (hu : v.LeadsTo u) : u.IsTidy := by
  induction hu with
  | self => exact h
  | further _ hes htype he ih =>
    cases ih with
    | other hother => cases htype.symm.trans (hother _ hes)
    | record _ hall =>
      cases hes
      exact hall _ he

/-- The records that a tidy value leads to have optional keys of their own
(`Value.NamesOwnKeys`). -/
theorem Value.IsTidy.namesOwnKeys (h : v.IsTidy) : v.NamesOwnKeys := by
  intro u es hu hes htype
  cases h.of_leadsTo hu with
  | other hother => cases htype.symm.trans (hother es hes)
  | record hnames _ =>
    cases hes
    exact hnames

/-- What an attribute of a record leads to is what the record leads to. -/
theorem Value.LeadsTo.of_attribute {u : Value} {e : Scalar × Value} (hes : v.entries? = some es)
    (htype : (fieldOf "type" es).same (.str "record") = true)
    (he : e ∈ (fieldOf "properties" es).entries?.getD []) (h : e.2.LeadsTo u) : v.LeadsTo u := by
  induction h with
  | self => exact .further .self hes htype he
  | further _ hes' htype' he' ih => exact .further ih hes' htype' he'

/-- A tree is tidy if the records that it leads to have optional keys of their own. So tidiness asks
for more than that only of values that occur within themselves. -/
theorem Value.IsTree.isTidy (htree : v.IsTree) (h : v.NamesOwnKeys) : v.IsTidy := by
  refine htree.record_induct (P := fun v => v.NamesOwnKeys → v.IsTidy)
    (fun v _ hother _ => .other hother) (fun es _ htype ih h => ?_) h
  refine .record (h _ _ .self rfl htype) fun e he => ih e he fun u es' hu => ?_
  exact h u es' (hu.of_attribute rfl htype he)

/-- The optional keys of a record in its normal form are keys of its attributes, and these are
tidy. -/
structure WorkingRecord.IsTidy (r : WorkingRecord) : Prop where
  /-- The optional keys. -/
  names : ∀ key ∈ r.optional, key ∈ Entries.keys r.properties
  /-- The attributes. -/
  all : ∀ p ∈ r.properties, p.2.IsTidy

variable {r r' n : WorkingRecord}

/-- The keys of fields are the texts of the keys that `textEntries` gives them. -/
theorem map_text_textEntries (fields : List (String × Value)) :
    (textEntries fields).map (·.1.text) = Entries.keys fields := by
  rw [textEntries, List.map_map]
  rfl

/-- A list of texts `NamesKeysOf` a mapping of fields if each text is a key of these. -/
theorem namesKeysOf_texts (h : ∀ key ∈ keys, key ∈ Entries.keys fields) :
    NamesKeysOf (.list (keys.map .str)) (.record fields) := by
  have hkeys : Parameters.keysOf "optional" (.list (keys.map .str)) = .ok keys := by
    show Except.ok ((keys.map Value.str).map Value.text) = _
    rw [Operation.map_text_map_str]
  refine ⟨keys, hkeys, ?_⟩
  rw [Value.entries?_record, Option.getD_some, map_text_textEntries]
  exact h

/-- A mapping over which a tidy record is laid (`laidOver`) is tidy. -/
theorem WorkingRecord.IsTidy.laidOver (h : r.IsTidy) (es : List (Scalar × Value)) :
    (r.laidOver (.mapping es)).IsTidy := by
  have hover : r.laidOver (.mapping es) = .mapping (Entries.put (.str "optional")
      (.list (r.optional.map .str))
        (Entries.put (.str "properties") (.record r.properties) es)) := rfl
  have hproperties : fieldOf "properties"
      (Entries.put (.str "properties") (.record r.properties) es) = .record r.properties :=
    fieldOf_put_self
  rw [hover]
  -- The new list names keys of the new attributes, and these are tidy by themselves.
  refine .record ?_ ?_
  · rw [fieldOf_put_self, fieldOf_put_of_ne (by decide), hproperties]
    exact namesKeysOf_texts h.names
  · rw [fieldOf_put_of_ne (by decide), hproperties, Value.entries?_record]
    intro e he
    obtain ⟨p, hp, rfl⟩ := List.mem_map.mp he
    exact h.all p hp

/-- A tidy record of the working state has a tidy value, with the list of its optional keys. -/
theorem WorkingRecord.IsTidy.toValue (h : r.IsTidy) : r.toValue.IsTidy := by
  rw [toValue_eq_laidOver]
  exact h.laidOver _

/-- The entries of a tidy value, as a mapping of their own, are tidy. -/
theorem Value.IsTidy.mapping (h : v.IsTidy) (hes : v.entries? = some es) :
    (Value.mapping es).IsTidy := by
  cases h with
  | other h =>
    refine .other fun es' hes' => h es' ?_
    rw [hes, ← hes']
    rfl
  | record hnames hall =>
    cases hes
    exact .record hnames hall

/-- A tidy record is a mapping, and no knot, and its optional keys are keys of its attributes. -/
theorem Value.IsTidy.exists_mapping (h : v.IsTidy) (hes : v.entries? = some es)
    (htype : (fieldOf "type" es).same (.str "record") = true) :
    v = .mapping es ∧ NamesKeysOf (fieldOf "optional" es) (fieldOf "properties" es) ∧
      ∀ e ∈ (fieldOf "properties" es).entries?.getD [], e.2.IsTidy := by
  cases h with
  | other h => cases htype.symm.trans (h es hes)
  | record hnames hall =>
    cases hes
    exact ⟨rfl, hnames, hall⟩

/-- Settings that are put into a tidy mapping leave it tidy, since they are none of its
attributes. -/
theorem Value.IsTidy.withOptions (h : v.IsTidy) (hv : v.isMapping = true) (x : Value) :
    (withPart "options" x v).IsTidy := by
  cases h with
  | other h =>
    obtain ⟨es, hes⟩ := exists_entries? hv
    exact .other fun es' hes' => (type_withPart hes (by decide) hes' "record").trans (h es hes)
  | @record es hnames hall =>
    show (Value.mapping (Entries.put (.str "options") x es)).IsTidy
    refine .record ?_ ?_
    · rwa [fieldOf_put_of_ne (by decide), fieldOf_put_of_ne (by decide)]
    · rwa [fieldOf_put_of_ne (by decide)]

namespace Operation

variable {F : String → WorkingRecord → WorkingRecord → Prop} {path : List String}
  {ps : Parameters} {w w' : Working}

/-! ## Normal forms -/

/-- What `mappingOf` and `keysOf` take of a tidy record is tidy again: the optional keys are among
the texts of the keys. -/
theorem isTidy_mappingOf {properties optional : Value}
    (hnames : NamesKeysOf optional properties)
    (hall : ∀ e ∈ properties.entries?.getD [], e.2.IsTidy)
    (hfields : Parameters.mappingOf name properties = .ok (textEntries fields))
    (hkeys : Parameters.keysOf "optional" optional = .ok keys) :
    WorkingRecord.IsTidy ⟨fields, keys⟩ := by
  obtain ⟨hin, hfrom⟩ := Parameters.mem_of_mappingOf hfields
  obtain ⟨keys', hkeys', hnames⟩ := hnames
  cases hkeys.symm.trans hkeys'
  refine ⟨fun key hkey => ?_, fun f hf => ?_⟩
  · obtain ⟨e, he, rfl⟩ := List.mem_map.mp (hnames key hkey)
    exact hin e he
  · obtain ⟨e, he, rfl⟩ := hfrom f hf
    exact hall e he

/-- If a tidy record is brought into its normal form, the optional keys still name attributes of
it. -/
theorem isTidy_normalForm (h : v.IsTidy) (hes : v.entries? = some es)
    (htype : (fieldOf "type" es).same (.str "record") = true) (hn : NormalForm v n) :
    n.IsTidy := by
  obtain ⟨rfl, hnames, hall⟩ := h.exists_mapping hes htype
  obtain ⟨-, p, o, hp, hproperties, ho, hoptional⟩ := hn
  obtain rfl : fieldOf "properties" es = p := Except.ok.inj hp
  have ho' : fieldOf "optional" (Entries.put (.str "properties") (.record n.properties) es) = o :=
    Except.ok.inj ho
  rw [fieldOf_put_of_ne (by decide)] at ho'
  rw [← ho'] at hoptional
  exact isTidy_mappingOf hnames hall hproperties hoptional

/-- What is left of a tidy record, where bringing it into its normal form stops, is tidy. -/
theorem HalfNormal.isTidy (h : HalfNormal v v') (hv : v.IsTidy) (hes : v.entries? = some es)
    (htype : (fieldOf "type" es).same (.str "record") = true) : v'.IsTidy := by
  obtain ⟨rfl, hnames, hall⟩ := hv.exists_mapping hes htype
  cases h with
  | untouched => exact .record hnames hall
  | @properties p fields hp hfields =>
    obtain rfl : fieldOf "properties" es = p := Except.ok.inj hp
    -- the optional keys are still those of before, and the attributes have kept their keys as texts
    obtain ⟨keys, hkeys, -⟩ := id hnames
    have htidy := isTidy_mappingOf hnames hall hfields hkeys
    show (Value.mapping (Entries.put (.str "properties") (.record fields) es)).IsTidy
    refine .record ⟨keys, ?_, ?_⟩ ?_
    · rwa [fieldOf_put_of_ne (by decide)]
    · rw [fieldOf_put_self, Value.entries?_record, Option.getD_some, map_text_textEntries]
      exact htidy.names
    · rw [fieldOf_put_self, Value.entries?_record]
      intro e he
      obtain ⟨f, hf, rfl⟩ := List.mem_map.mp he
      exact htidy.all f hf

/-! ## Changes of records -/

/-- A record stays tidy when a tidy attribute is put in the place of another one, or at the end. -/
theorem isTidy_put (h : r.IsTidy) (hx : x.IsTidy) :
    WorkingRecord.IsTidy { r with properties := Entries.put key x r.properties } := by
  refine ⟨fun k hk => Entries.mem_keys_put.mpr (.inr (h.names k hk)), fun p hp => ?_⟩
  rcases Entries.mem_put hp with rfl | hp
  · exact hx
  · exact h.all p hp

/-- A change of records leads from tidy records to tidy ones. The changes at the end of a path are
such, those that bring an attribute along if this is tidy. -/
def KeepsTidy (F : String → WorkingRecord → WorkingRecord → Prop) : Prop :=
  ∀ key r r', F key r r' → r.IsTidy → r'.IsTidy

/-- A change at the end of a path keeps the record at its start tidy. The induction is on the
path. -/
theorem ChangedAt.isTidy (hF : KeepsTidy F) (h : ChangedAt F path r r') (hr : r.IsTidy) :
    r'.IsTidy := by
  induction h with
  | here h => exact hF _ _ _ h hr
  | further hget hes htype hn _ _ ih =>
    have hv := hr.all _ (Entries.mem_of_get? hget)
    have hn' := ih (isTidy_normalForm hv hes htype hn)
    obtain ⟨rfl, -⟩ := hv.exists_mapping hes htype
    exact isTidy_put hr (hn'.laidOver _)

/-- What is left of a tidy record, where going along a path stops, is tidy. -/
theorem Settles.isTidy (h : Settles r r') (hr : r.IsTidy) : r'.IsTidy := by
  induction h with
  | refl => exact hr
  | half hget hes htype h =>
    exact isTidy_put hr (h.isTidy (hr.all _ (Entries.mem_of_get? hget)) hes htype)
  | further hget hes htype hn _ ih =>
    have hv := hr.all _ (Entries.mem_of_get? hget)
    have hn' := ih (isTidy_normalForm hv hes htype hn)
    obtain ⟨rfl, -⟩ := hv.exists_mapping hes htype
    exact isTidy_put hr (hn'.laidOver _)

/-- After `withOptional` an optional key is one of before, or it is the one key that was made
optional. -/
theorem mem_of_mem_withOptional {optional : Bool} {k : String}
    (h : k ∈ withOptional key optional keys) : k ∈ keys ∧ k ≠ key ∨ k = key ∧ optional = true := by
  have hothers : ∀ l ∈ keys.filter (· ≠ key), l ∈ keys ∧ l ≠ key := fun l hl => by
    simpa using List.mem_filter.mp hl
  unfold withOptional at h
  cases optional with
  | false => exact .inl (hothers k h)
  | true =>
    rcases List.mem_append.mp h with h | h
    · exact .inl (hothers k h)
    · exact .inr ⟨List.mem_singleton.mp h, rfl⟩

/-- A key that `withOptional` takes out of the optional keys is not among them any more. -/
theorem not_mem_withOptional : key ∉ withOptional key false keys := by
  intro h
  rcases mem_of_mem_withOptional h with ⟨-, hne⟩ | ⟨-, hfalse⟩
  · exact hne rfl
  · cases hfalse

/-- A record stays tidy when a tidy attribute is added (`Adds`). -/
theorem keepsTidy_adds (h : (ps.optional "attribute").IsTidy) : KeepsTidy (Adds ps) := by
  rintro key r _ ⟨-, added, entries, hadded, hentries, rfl⟩ hr
  rw [Parameters.optional_of_required hadded] at h
  have hput : WorkingRecord.IsTidy
      { r with properties := Entries.put key (.mapping entries) r.properties } :=
    isTidy_put hr (h.mapping hentries)
  refine ⟨fun k hk => ?_, hput.all⟩
  rcases mem_of_mem_withOptional hk with ⟨hk, -⟩ | ⟨rfl, -⟩
  · exact hput.names k hk
  · exact Entries.mem_keys_put.mpr (.inl rfl)

/-- A record stays tidy when an attribute is dropped, since its key is not optional any more. -/
theorem keepsTidy_drops : KeepsTidy Drops := by
  rintro key r _ ⟨-, rfl⟩ hr
  refine ⟨fun k hk => ?_, fun p hp => hr.all p (Entries.mem_of_mem_remove hp)⟩
  have hk' : k ∈ withOptional key false r.optional := hk
  rcases mem_of_mem_withOptional hk' with ⟨hk, hne⟩ | ⟨-, hfalse⟩
  · exact Entries.mem_keys_remove_of_ne hne (hr.names k hk)
  · cases hfalse

/-- A record stays tidy when an attribute that is there is made optional or not. -/
theorem keepsTidy_marks : KeepsTidy (Marks ps) := by
  rintro key r _ ⟨hhas, flag, -, rfl⟩ hr
  refine ⟨fun k hk => ?_, hr.all⟩
  rcases mem_of_mem_withOptional hk with ⟨hk, -⟩ | ⟨rfl, -⟩
  · exact hr.names k hk
  · exact Entries.has_iff.mp hhas

/-- A record stays tidy when the settings of an attribute are changed (`Resets`), for settings are
no records. -/
theorem keepsTidy_resets (f : List (String × Value) → List (String × Value)) :
    KeepsTidy (Resets f) := by
  rintro key r _ ⟨v, fields, hget, ⟨o, ho, -⟩, rfl⟩ hr
  obtain ⟨es, hes⟩ := Value.exists_entries?_of_get ho
  have hv := hr.all _ (Entries.mem_of_get? hget)
  exact isTidy_put hr (hv.withOptions (Value.isMapping_of_entries? hes) _)

/-! ## Changes of states -/

/-- The records of all collections in a working state are tidy. -/
def IsTidyWorking (w : Working) : Prop := ∀ c ∈ w.collections, c.2.record.IsTidy

/-- The records that the parameters of an operation hold are tidy, and a collection is given
optional keys that are keys of its attributes. -/
def GivesTidy (ps : Parameters) : Operation → Prop
  | createCollection => NamesKeysOf (ps.optional "optional") (ps.optional "schema") ∧
    ∀ e ∈ (ps.optional "schema").entries?.getD [], e.2.IsTidy
  | addAttribute => (ps.optional "attribute").IsTidy
  | _ => True

/-- The change that an operation makes to a record at the end of a path keeps it tidy. -/
theorem keepsTidy_edits {op : Operation} (hgives : op.GivesTidy ps) :
    KeepsTidy (op.Edits ps) := by
  cases op with
  | addAttribute => exact keepsTidy_adds hgives
  | dropAttribute => exact keepsTidy_drops
  | alterAttributeOption =>
    rintro key r r' ⟨given, changed, -, -, hresets⟩
    exact keepsTidy_resets _ key r r' hresets
  | dropAttributeOption =>
    rintro key r r' ⟨option, -, hresets⟩
    exact keepsTidy_resets _ key r r' hresets
  | setAttributeOptional => exact keepsTidy_marks
  | _ => exact fun _ _ _ h => h.elim

/-- An operation that succeeds keeps all records of a state tidy, if what it brings along is tidy
(`GivesTidy`). -/
theorem isTidy_of_leads {op : Operation} (hgives : op.GivesTidy ps) (h : op.Leads ps w w')
    (hw : IsTidyWorking w) : IsTidyWorking w' := by
  refine Leads.eachRecord (P := WorkingRecord.IsTidy) ?_ ?_ h hw
  · rintro rfl c hc
    exact isTidy_mappingOf hgives.1 hgives.2 hc.properties hc.optional
  · exact fun _ _ _ hchanged => hchanged.isTidy (keepsTidy_edits hgives)

/-- What an operation leaves of a tidy state where it fails is tidy, since the attributes stay the
same up to their normal form. -/
theorem isTidy_of_abandons {op : Operation} (h : op.Abandons ps w w') (hw : IsTidyWorking w) :
    IsTidyWorking w' :=
  Abandons.eachRecord (Q := WorkingRecord.IsTidy) (fun _ _ hsettles => hsettles.isTidy) h hw

end Operation

namespace Migration

open Operation (IsTidyWorking GivesTidy Adds LocatedChange)
open Change (Keeps)

/-! ## Runs -/

/-- The states to which steps lead of which `P` holds, one after another. A step that fails leaves
what it has done so far, and in between the state may get a version, as at the end of a
migration. -/
inductive ReachedBy (P : Value → Prop) : Value → Prop
  /-- The state before all steps. -/
  | empty : ReachedBy P emptyState
  /-- What a step leaves. -/
  | step {state step : Value} (hstep : P step) (h : ReachedBy P state) :
      ReachedBy P ((runStep step).runOn state).2
  /-- The state with a version. -/
  | version {state : Value} (n : Int) (h : ReachedBy P state) :
      ReachedBy P ((Change.write "version" (.int n) : Change MigrationError Unit).runOn state).2

/-- What a migration leaves is `ReachedBy` its steps, if `P` holds of each of them. -/
theorem ReachedBy.apply {P : Value → Prop} {state : Value} (h : ReachedBy P state)
    (migration : Value)
    (hP : ∀ up steps, migration.get "up" = .ok up → (up.orElse (.list [])).elements = .ok steps →
      ∀ step ∈ steps, P step) :
    ReachedBy P ((Migration.apply migration).runOn state).2 := by
  have hkeeps : Keeps (ReachedBy P) (Migration.apply migration) := by
    refine (Change.keeps_ofOutcome _).bind fun version _ _ => ?_
    refine (Change.keeps_ofOutcome _).bind fun up _ hup => ?_
    refine (Change.keeps_ofOutcome _).bind fun steps _ hsteps => ?_
    refine (Change.keeps_forM fun step hstep state h => ?_).bind fun _ _ _ state h => ?_
    · exact .step (hP up steps (Outcome.lift_eq_ok.mp hup) (Outcome.lift_eq_ok.mp hsteps) step
        hstep) h
    · exact .version version h
  exact hkeeps state h

/-- A property of sound states that operations keep, whether they succeed or fail, is kept by a
step. -/
theorem exists_working_runStep {I : Working → Prop} {step : Value} {w : Working} (hw : w.IsSound)
    (hI : I w) (hleads : ∀ op ps w', Denotes step op ps → op.Leads ps w w' → I w')
    (habandons : ∀ op ps w', Denotes step op ps → op.Abandons ps w w' → I w') :
    ∃ w' : Working, w'.IsSound ∧ I w' ∧ ((runStep step).runOn w.toValue).2 = w'.toValue := by
  obtain ⟨w', hrun, hw', -, hsucceeds⟩ := does_runStep step w hw
  have hfails := failsTo_runStep step hw
  unfold FailsTo at hfails
  refine ⟨w', hw', ?_, hrun⟩
  -- success and failure of the one run are told apart, each with what is known of its state
  generalize (runStep step).runOn w.toValue = r at hrun hsucceeds hfails
  obtain ⟨result, v⟩ := r
  cases result with
  | ok a =>
    obtain ⟨op, ps, hdenotes, h⟩ := hsucceeds a rfl
    exact hleads op ps w' hdenotes h
  | error failure =>
    obtain ⟨y, hy, h⟩ := hfails failure v rfl
    obtain rfl : y = w' := Working.toValue_injective (hy.symm.trans hrun)
    rcases h with rfl | ⟨op, ps, hdenotes, h⟩
    · exact hI
    · exact habandons op ps y hdenotes h

/-- A property of the collections of a state that steps keep, whether they succeed or fail, is one
of every state to which they lead. This is the induction on runs. -/
theorem ReachedBy.exists_working {P : Value → Prop}
    {I : List (String × WorkingCollection) → Prop} {state : Value} (hempty : I [])
    (hleads : ∀ step op ps w w', P step → Denotes step op ps → op.Leads ps w w' →
      I w.collections → I w'.collections)
    (habandons : ∀ step op ps w w', P step → Denotes step op ps → op.Abandons ps w w' →
      I w.collections → I w'.collections)
    (h : ReachedBy P state) :
    ∃ w : Working, w.IsSound ∧ I w.collections ∧ state = w.toValue := by
  -- A step may change what `I` speaks of, whether it succeeds or fails; a new version does not.
  induction h with
  | empty =>
    have hsound : (⟨0, []⟩ : Working).IsSound := ⟨List.nodup_nil, fun _ h => by cases h⟩
    exact ⟨⟨0, []⟩, hsound, hempty, rfl⟩
  | @step state step hstep _ ih =>
    obtain ⟨w, hw, hI, rfl⟩ := ih
    exact exists_working_runStep (I := fun w => I w.collections) hw hI
      (fun op ps w' hd h => hleads step op ps w w' hstep hd h hI)
      fun op ps w' hd h => habandons step op ps w w' hstep hd h hI
  | version n _ ih =>
    obtain ⟨w, hw, hI, rfl⟩ := ih
    exact ⟨{ w with version := n }, hw, hI, by rw [runOn_writeVersion]⟩

/-- All records that a step is given are tidy, whatever operation it denotes. -/
def GivesTidily (step : Value) : Prop := ∀ op ps, Denotes step op ps → op.GivesTidy ps

/-- A state to which steps with tidy records lead has tidy records only. -/
theorem ReachedBy.isTidy {state : Value} (h : ReachedBy GivesTidily state) :
    ∃ w : Working, w.IsSound ∧ IsTidyWorking w ∧ state = w.toValue :=
  h.exists_working (I := fun cs => ∀ c ∈ cs, c.2.record.IsTidy)
    (fun _ h => (List.not_mem_nil h).elim)
    (fun _ op ps _ _ hgives hd hleads => Operation.isTidy_of_leads (hgives op ps hd) hleads)
    fun _ _ _ _ _ _ _ habandons => Operation.isTidy_of_abandons habandons

/-- An attribute is there, and it is not among the optional keys of its record. -/
def IsRequiredIn (key : String) (_ r : WorkingRecord) : Prop :=
  Entries.has key r.properties = true ∧ key ∉ r.optional

/-- An attribute that is added without being made optional is not optional, whatever the record had
as optional keys. -/
theorem isRequiredIn_of_adds {ps : Parameters} {key : String} {r r' : WorkingRecord}
    (hps : (ps.optional "optional").isTruthy = false) (h : Adds ps key r r') :
    IsRequiredIn key r r' := by
  obtain ⟨-, added, entries, -, -, rfl⟩ := h
  refine ⟨Entries.has_iff.mpr (Entries.mem_keys_put.mpr (.inl rfl)), ?_⟩
  rw [hps]
  exact Operation.not_mem_withOptional

/-- If all records that steps are given are tidy, which none is that occurs within itself
(`Value.IsTidy`), then so are the records of every state to which they lead, whether they succeed or
fail, at any depth: no key is optional that is not the key of an attribute. So an attribute that is
added without being made optional is not optional, whether or not there was an attribute of that
name before. -/
theorem no_dangling_optional {state : Value} (h : ReachedBy GivesTidily state) :
    ∃ w : Working, w.IsSound ∧ state = w.toValue ∧
      (∀ c ∈ w.collections, c.2.record.toValue.IsTidy) ∧
        ∀ step ps state', Denotes step .addAttribute ps →
          (ps.optional "optional").isTruthy = false →
          (runStep step).runOn state = (.ok (), state') →
            ∃ w' : Working, state' = w'.toValue ∧ LocatedChange ps IsRequiredIn w w' := by
  obtain ⟨w, hw, htidy, rfl⟩ := h.isTidy
  refine ⟨w, hw, rfl, fun c hc => (htidy c hc).toValue, fun step ps state' hstep hps hrun => ?_⟩
  obtain ⟨w', hstate, -, -, hleads⟩ := does_runStep step w hw
  rw [hrun] at hstate hleads
  obtain ⟨op, ps', hstep', hleads⟩ := hleads () rfl
  obtain ⟨rfl, rfl⟩ := hstep.unique hstep'
  obtain ⟨name, path, c, r, hname, hpath, hget, hchanged, rfl⟩ := hleads
  exact ⟨_, hstate, name, path, c, r, hname, hpath, hget,
    hchanged.mono fun _ _ _ => isRequiredIn_of_adds hps, rfl⟩

/-- What is left of a collection of notes whose optional `title` was dropped. -/
def untitledNotes : Working :=
  ⟨0, [("notes", ⟨⟨[("details", .record [("type", .str "record"),
    ("properties", .record [("author", .record [("type", .str "string")])]),
    ("optional", .list [.str "author"])])], []⟩, none⟩)]⟩

/-- The notes are made with two optional keys, one of which names a record's attribute; the title is
dropped, and after a step that fails it is added again, and is not optional then. -/
theorem no_dangling_optional_notes :
    let text : Value := .record [("type", .str "string")]
    let details : Value := .record [("type", .str "record"),
      ("properties", .record [("author", text)]), ("optional", .list [.str "author"])]
    let create : Value := .list [.str "create_collection", .record [("name", .str "notes"),
      ("schema", .record [("title", text), ("details", details)]),
      ("optional", .list [.str "title"])]]
    let drop : Value := .list [.str "drop_attribute", .record [("collection", .str "notes"),
      ("path", .list [.str "title"])]]
    let fails : Value := .list [.str "set_attribute_optional", .record [
      ("collection", .str "notes"), ("path", .list [.str "details", .str "author"])]]
    let ps : Parameters := [(.str "collection", .str "notes"), (.str "path", .str "title"),
      (.str "attribute", text)]
    let state := ((runStep fails).runOn ((runStep drop).runOn
      ((runStep create).runOn emptyState).2).2).2
    state = untitledNotes.toValue ∧
      (∀ c ∈ untitledNotes.collections, c.2.record.toValue.IsTidy) ∧
        ∃ w' : Working, ((runStep (.list [.str "add_attribute", .mapping ps])).runOn state).2
          = w'.toValue ∧ LocatedChange ps IsRequiredIn untitledNotes w' := by
  intro text details create drop fails ps state
  have htext : text.IsTidy := .other fun es hes => by cases hes; rfl
  have hdetails : details.IsTidy := by
    refine .record ⟨["author"], rfl, List.forall_mem_singleton.mpr List.mem_cons_self⟩ ?_
    exact List.forall_mem_singleton.mpr htext
  -- A condition on a step is asked of the operation that it denotes, and it denotes one only.
  have hcreate : GivesTidily create := by
    intro op ps hdenotes
    obtain ⟨rfl, rfl⟩ := hdenotes.unique ⟨_, _, "create_collection", rfl, rfl, rfl⟩
    refine ⟨⟨["title"], rfl, List.forall_mem_singleton.mpr List.mem_cons_self⟩, ?_⟩
    exact List.forall_mem_cons.mpr ⟨htext, List.forall_mem_singleton.mpr hdetails⟩
  have hdrop : GivesTidily drop := by
    intro op ps hdenotes
    obtain ⟨rfl, rfl⟩ := hdenotes.unique ⟨_, _, "drop_attribute", rfl, rfl, rfl⟩
    trivial
  have hfails : GivesTidily fails := by
    intro op ps hdenotes
    obtain ⟨rfl, rfl⟩ := hdenotes.unique ⟨_, _, "set_attribute_optional", rfl, rfl, rfl⟩
    trivial
  have hreached : ReachedBy GivesTidily state := .step hfails (.step hdrop (.step hcreate .empty))
  obtain ⟨w, -, hstate, htidy, hadds⟩ := no_dangling_optional hreached
  have huntitled : state = untitledNotes.toValue := rfl
  obtain rfl : untitledNotes = w := Working.toValue_injective (huntitled.symm.trans hstate)
  obtain ⟨w', hw', hchange⟩ := hadds (.list [.str "add_attribute", .mapping ps]) ps _
    ⟨_, _, "add_attribute", rfl, rfl, rfl⟩ rfl rfl
  exact ⟨huntitled, htidy, w', hw', hchange⟩

/-- The records that a step is given have optional keys of their own, also where a record lies
within itself. -/
def GivesOwnKeys (step : Value) : Prop := ∀ op ps, Denotes step op ps →
  (op = .createCollection → NamesKeysOf (ps.optional "optional") (ps.optional "schema") ∧
    ∀ e ∈ (ps.optional "schema").entries?.getD [], e.2.NamesOwnKeys) ∧
  (op = .addAttribute → (ps.optional "attribute").NamesOwnKeys)

/-- The lists and mappings of a record that is its own mapping of attributes, and that has some
other attributes. -/
def ownAttributesNodes (others : List (String × Value)) : List Value :=
  [.record ([("type", .str "record"), ("properties", .link 0 true), ("optional", .link 1 false)]
    ++ others), .list []]

/-- A record that is its own mapping of attributes, and that has some other attributes. -/
def ownAttributes (others : List (String × Value)) : Value := .knot 0 (ownAttributesNodes others)

/-- A record with the optional key `ghost`, which it does not have. -/
def ghostRecord : Value := .record [("type", .str "record"), ("optional", .list [.str "ghost"])]

/-- The attributes of notes whose details are the record `ownAttributes`, which is its own mapping
of attributes. -/
def ownAttributesRecord (others : List (String × Value)) : WorkingRecord :=
  ⟨[("details", ownAttributes others)], []⟩

/-- The state whose notes have `ownAttributesRecord` for a record. -/
def ownAttributesNotes (others : List (String × Value)) : Working :=
  ⟨0, [("notes", ⟨ownAttributesRecord others, none⟩)]⟩

/-- The record that is its own mapping of attributes leads to itself, to its type and to the list of
its optional keys. -/
theorem leadsTo_ownAttributes {u : Value} (h : (ownAttributes []).LeadsTo u) :
    u ∈ [.str "record", ownAttributes [], .knot 1 (ownAttributesNodes [])] := by
  -- The record leads to its entries, and its attributes are the record again.
  induction h with
  | self => exact List.mem_cons_of_mem _ List.mem_cons_self
  | @further u es e _ hes _ he ih =>
    simp only [List.mem_cons, List.not_mem_nil, or_false] at ih
    rcases ih with rfl | rfl | rfl
    · cases hes
    · cases hes
      exact List.mem_map.mpr ⟨e, he, rfl⟩
    · cases hes

/-- At first the record `ownAttributes` names no optional keys but its own, for it has none. -/
theorem namesOwnKeys_ownAttributes : (ownAttributes []).NamesOwnKeys := by
  intro u es hu hes htype
  have hmem := leadsTo_ownAttributes hu
  simp only [List.mem_cons, List.not_mem_nil, or_false] at hmem
  rcases hmem with rfl | rfl | rfl
  · cases hes
  · cases hes
    exact ⟨[], rfl, nofun⟩
  · cases hes

/-- With settings that are a record, the record has that as an attribute, with an optional key that
is none of its own. -/
theorem not_namesOwnKeys_ghostRecord :
    ¬ (ownAttributesRecord [("options", ghostRecord)]).toValue.NamesOwnKeys := by
  intro h
  have hdetails : (ownAttributesRecord [("options", ghostRecord)]).toValue.LeadsTo
      (ownAttributes [("options", ghostRecord)]) := by
    refine .further (e := (.str "details", ownAttributes [("options", ghostRecord)])) .self rfl
      rfl ?_
    exact List.mem_cons_self
  -- The settings of an attribute are one of its entries, and these are what can be reached.
  have hghost : (ownAttributesRecord [("options", ghostRecord)]).toValue.LeadsTo ghostRecord := by
    refine .further (e := (.str "options", ghostRecord)) hdetails rfl rfl ?_
    exact List.mem_cons_of_mem _ (List.mem_cons_of_mem _ (List.mem_cons_of_mem _
      List.mem_cons_self))
  obtain ⟨keys, hkeys, hown⟩ := h ghostRecord _ hghost rfl rfl
  obtain rfl : ["ghost"] = keys := Except.ok.inj hkeys
  exact absurd (hown "ghost" List.mem_cons_self) List.not_mem_nil

/-- The steps that make notes, with details that are their own mapping of attributes, and that give
the details settings. All records in them have optional keys of their own; but the settings, which
are no attribute where they are given, are one of the details then, and they are a record with an
optional key that it does not have. -/
theorem exists_dangling_optional :
    let create : Value := .list [.str "create_collection", .record [("name", .str "notes"),
      ("schema", .record [("details", ownAttributes [])]), ("optional", .list [])]]
    let alter : Value := .list [.str "alter_attribute_option", .record [
      ("collection", .str "notes"), ("path", .list [.str "details"]), ("options", ghostRecord)]]
    let state := ((runStep alter).runOn ((runStep create).runOn emptyState).2).2
    ReachedBy GivesOwnKeys state ∧
      state = (ownAttributesNotes [("options", ghostRecord)]).toValue ∧
        ∃ c ∈ (ownAttributesNotes [("options", ghostRecord)]).collections,
          ¬ c.2.record.toValue.NamesOwnKeys := by
  intro create alter state
  have hcreate : GivesOwnKeys create := by
    intro op ps hdenotes
    obtain ⟨rfl, rfl⟩ := hdenotes.unique ⟨_, _, "create_collection", rfl, rfl, rfl⟩
    refine ⟨fun _ => ⟨⟨[], rfl, nofun⟩, ?_⟩, nofun⟩
    exact List.forall_mem_singleton.mpr namesOwnKeys_ownAttributes
  -- The settings that this step carries are not what a collection or an attribute is made of.
  have halter : GivesOwnKeys alter := by
    intro op ps hdenotes
    obtain ⟨rfl, rfl⟩ := hdenotes.unique ⟨_, _, "alter_attribute_option", rfl, rfl, rfl⟩
    exact ⟨nofun, nofun⟩
  have hreached : ReachedBy GivesOwnKeys state := .step halter (.step hcreate .empty)
  exact ⟨hreached, rfl, _, List.mem_cons_self, not_namesOwnKeys_ghostRecord⟩

end Migration

end SchemaForge
