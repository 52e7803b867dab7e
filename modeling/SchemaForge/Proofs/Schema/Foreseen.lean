import SchemaForge.Proofs.Schema.Description
import SchemaForge.Proofs.Value.Access

/-!
# Documents of a foreseen shape

Malformed documents are to be refused (section 3 of the specification). Reading a schema document
looks at the kind of a part before it uses it, with a few exceptions: the optional keys of a record,
the arguments of a default that is a call, and the cardinality of a relation. A `Value.IsForeseen`
is an attribute in which these have a kind that can be used, at any depth, and which does not occur
within itself. It is read or refused (`isAnnounced_attributeOfPart`), and never breaks reading down.
-/

namespace SchemaForge

open Outcome (IsAnnounced isAnnounced_ok isAnnounced_refuse)

variable {v : Value} {es : List (Scalar × Value)}

/-! ## Values of a foreseen shape -/

namespace Value

/-- A value over whose parts a loop may run (`elements`), or one that counts as false, for which an
empty one stands in. -/
def IsLoopable (v : Value) : Prop := v.isTruthy = true → ∃ parts, v.elements = .ok parts

/-- A loop runs over the parts of a loopable value or of what stands in for it. -/
theorem IsLoopable.exists_elements (h : v.IsLoopable) (other : Value) {parts : List Value}
    (hother : other.elements = .ok parts) : ∃ parts, (v.orElse other).elements = .ok parts := by
  unfold orElse
  split
  · exact h ‹_›
  · exact ⟨parts, hother⟩

/-- A list is what a loop may run over. -/
theorem isLoopable_list (items : List Value) : (Value.list items).IsLoopable :=
  fun _ => ⟨items, rfl⟩

/-- A value that is neither a knot nor a link, so that it does not occur within itself at the
top. -/
def isUnknotted : Value → Bool
  | .knot .. => false
  | .link .. => false
  | _ => true

/-- What has no entries and does not occur within itself is no mapping, no knot and no link. -/
theorem isOther_of_isUnknotted (hknot : v.isUnknotted = true) (h : v.entries? = none) :
    v.IsOther := by
  cases v with
  | mapping es => cases h
  | knot n nodes => cases hknot
  | link n keyed => cases hknot
  | _ => exact ⟨nofun, nofun, nofun⟩

/-- A default that is no call, or a call with arguments over which a loop may run. -/
def IsForeseenDefault (v : Value) : Prop :=
  ∀ call name, v.entries? = some call → fieldOf "func" call = .str name →
    (fieldOf "args" call).IsLoopable

/-- Settings with a default of a foreseen shape, if they have one. A key counts by its text, since
settings are copied under the texts of their keys. -/
def IsForeseenOptions (v : Value) : Prop :=
  ∀ e ∈ v.entries?.getD [], e.1.text = "default" → e.2.IsForeseenDefault

/-- An attribute whose parts are of a kind that the reader can use: it is read, or else it is
refused. -/
inductive IsForeseen : Value → Prop
  /-- What is no mapping is refused. -/
  | other {v : Value} (hknot : v.isUnknotted = true) (h : v.entries? = none) : IsForeseen v
  /-- The parts of a mapping that are used without a look at their kind have the right kind: the
  optional keys of a record, the cardinality of a relation, and the arguments of a default. -/
  | mapping {es : List (Scalar × Value)} (hwithin : ∀ e ∈ es, e.2.within [] = e.2)
      (hoptional : (fieldOf "type" es).same (.str "record") = true →
        (fieldOf "optional" es).IsLoopable)
      (hknot : (fieldOf "type" es).same (.str "record") = true →
        (fieldOf "properties" es).isUnknotted = true)
      (hcardinality : (fieldOf "type" es).same (.str "query") = true →
        (fieldOf "cardinality" es).isComparable = true)
      (hoptions : (fieldOf "options" es).IsForeseenOptions)
      (hproperties : (fieldOf "type" es).same (.str "record") = true →
        ∀ e ∈ (fieldOf "properties" es).entries?.getD [], IsForeseen e.2)
      (hitems : (fieldOf "type" es).same (.str "set") = true → IsForeseen (fieldOf "items" es)) :
      IsForeseen (.mapping es)

/-- An attribute of a foreseen shape that has entries is a plain mapping, and no knot. -/
theorem IsForeseen.eq_mapping (h : v.IsForeseen) (hes : v.entries? = some es) :
    v = .mapping es := by
  cases h with
  | other _ h => cases h.symm.trans hes
  | mapping =>
    cases hes
    rfl

end Value

/-! ## Reading -/

/-- A default of a foreseen shape is read by `defaultOfValue`, or refused. -/
theorem isAnnounced_defaultOfValue (h : v.IsForeseenDefault) : IsAnnounced (defaultOfValue v) := by
  unfold defaultOfValue
  split
  · rename_i call hcall
    split
    · rename_i name hname
      obtain ⟨arguments, harguments⟩ := (h call name hcall hname).exists_elements
        (.tuple []) rfl
      rw [harguments]
      exact isAnnounced_ok _
    · exact isAnnounced_refuse _
  · exact isAnnounced_ok v

/-- A part that has to be a mapping is refused if it is none, whatever it is. -/
theorem isAnnounced_entriesOf (part : SchemaPart) (v : Value) :
    IsAnnounced (entriesOf part v) := by
  unfold entriesOf
  split
  · exact isAnnounced_ok _
  · exact isAnnounced_refuse _

/-- The function `Options.ofValue` reads settings of a foreseen shape or refuses them. -/
theorem isAnnounced_options (h : v.IsForeseenOptions) : IsAnnounced (Options.ofValue v) := by
  unfold Options.ofValue
  split
  · exact isAnnounced_ok _
  · refine (isAnnounced_entriesOf _ _).bind fun es hes => ?_
    split
    · exact isAnnounced_ok _
    · rename_i d hd
      have hentries : v.entries?.getD [] = es := by rw [entriesOf_eq_ok.mp hes, Option.getD_some]
      have hdefault : d.IsForeseenDefault :=
        h (.str "default", d) (hentries ▸ Value.mem_of_field? hd) rfl
      exact (isAnnounced_defaultOfValue hdefault).bind fun _ _ => isAnnounced_ok _

/-- Optional keys over which a loop may run (`IsLoopable`) are read by `optionalKeys`. -/
theorem isAnnounced_optionalKeys (h : v.IsLoopable) :
    IsAnnounced (liftM (optionalKeys v) : Outcome Malformed (List String)) := by
  obtain ⟨keys, hkeys⟩ := h.exists_elements (.tuple []) rfl
  rw [optionalKeys, hkeys]
  exact isAnnounced_ok _

/-- The function `relationOfEntries` reads a relation or refuses it, if its cardinality can be
compared with the known ones. -/
theorem isAnnounced_relationOfEntries {key : Option String}
    (h : (fieldOf "cardinality" es).isComparable = true) :
    IsAnnounced (relationOfEntries es key) := by
  have hcardinality : IsAnnounced (cardinalityOf es key) := by
    -- A missing cardinality stands for `many`, which can be compared.
    have hc : ((Value.field? "cardinality" es).getD (.str "many")).isComparable = true := by
      unfold fieldOf at h
      cases hfound : Value.field? "cardinality" es with
      | none => rfl
      | some c => rwa [hfound] at h
    unfold cardinalityOf
    dsimp only
    rw [hc, Bool.not_true, if_neg Bool.false_ne_true]
    split
    · exact isAnnounced_ok _
    · exact isAnnounced_refuse _
  refine (isAnnounced_entriesOf _ _).bind fun query _ => ?_
  dsimp only
  split
  · exact isAnnounced_refuse _
  · exact hcardinality.bind fun _ _ => isAnnounced_ok _

/-- Attributes that are announced one by one are announced together, behind any that are read
already. -/
theorem isAnnounced_propertiesOfEntries {es : List (Scalar × Value)}
    (h : ∀ e ∈ es, ∀ key, IsAnnounced (attributeOfPart [] 0 key e.2))
    (done : List (String × Attribute)) : IsAnnounced (propertiesOfEntries [] 0 es done) := by
  induction es generalizing done with
  | nil =>
    rw [propertiesOfEntries]
    exact isAnnounced_ok done
  | cons e es ih =>
    obtain ⟨k, v⟩ := e
    rw [propertiesOfEntries]
    refine (h _ List.mem_cons_self _).bind fun a _ => ?_
    exact ih (fun f hf => h f (List.mem_cons_of_mem _ hf)) _

/-- So are those of a mapping of attributes, which is refused if it is none. -/
theorem isAnnounced_propertiesOfPart {p : Value} (hknot : p.isUnknotted = true)
    (h : ∀ e ∈ p.entries?.getD [], ∀ key, IsAnnounced (attributeOfPart [] 0 key e.2)) :
    IsAnnounced (propertiesOfPart [] 0 p) := by
  cases p with
  | mapping es =>
    rw [propertiesOfPart]
    exact isAnnounced_propertiesOfEntries h []
  | knot n nodes => cases hknot
  | link n keyed => cases hknot
  | _ =>
    rw [propertiesOfPart_isOther (Value.isOther_of_isUnknotted hknot rfl)]
    split
    · exact isAnnounced_refuse _
    · exact isAnnounced_ok _

/-- An attribute of a foreseen shape is read or refused. The induction is on `IsForeseen`, and
follows the types as the reader does. -/
theorem isAnnounced_attributeOfPart (h : v.IsForeseen) (key : Option String) :
    IsAnnounced (attributeOfPart [] 0 key v) := by
  -- The induction is on the shape, which reaches as deep as reading does: into the properties of
  -- records and into the items of sets.
  induction h generalizing key with
  | other hknot h =>
    rw [attributeOfPart_isOther (Value.isOther_of_isUnknotted hknot h)]
    exact isAnnounced_refuse _
  | @mapping es hwithin hoptional hknot hcardinality hoptions _ _ hproperties hitems =>
    show IsAnnounced (Attribute.ofValue key (.mapping es))
    rw [ofValue_eq_attributeOfFields hwithin]
    unfold attributeOfFields
    dsimp only
    split
    · exact isAnnounced_refuse _
    split
    · rename_i hrecord
      refine IsAnnounced.bind ?_ fun _ _ =>
        (isAnnounced_optionalKeys (hoptional hrecord)).bind fun _ _ => isAnnounced_ok _
      cases hp : Value.field? "properties" es with
      | none => exact isAnnounced_ok _
      | some p =>
        have hfield : fieldOf "properties" es = p := by rw [fieldOf, hp, Option.getD_some]
        refine isAnnounced_propertiesOfPart (hfield ▸ hknot hrecord) fun e he => ?_
        exact hproperties hrecord e (hfield ▸ he)
    split
    · rename_i hset
      refine IsAnnounced.bind ?_ fun items _ => IsAnnounced.bind ?_ fun _ _ =>
        (isAnnounced_options hoptions).bind fun _ _ => isAnnounced_ok _
      · cases hw : Value.field? "items" es with
        | none => exact isAnnounced_refuse _
        | some w =>
          have hfield : fieldOf "items" es = w := by rw [fieldOf, hw, Option.getD_some]
          exact hfield ▸ hitems hset key
      · cases items with
        | primitive => exact isAnnounced_ok _
        | _ => exact isAnnounced_refuse _
    split
    · rename_i hquery
      exact isAnnounced_relationOfEntries (hcardinality hquery)
    · exact (isAnnounced_options hoptions).bind fun _ _ => isAnnounced_ok _

end SchemaForge
