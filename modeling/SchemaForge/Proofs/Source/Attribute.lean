import SchemaForge.Proofs.Schema.Regular

/-!
# Attributes as they are read back

The text of a regular attribute (section 4.2 of the specification) denotes an expression of which
the loader makes what a module keeps of the attribute, and this is written like the attribute
itself. Both go by induction on attributes and on the members of their trees.
-/

namespace SchemaForge

open Encoder

namespace Source

variable {kind : Value} {o : Options} {a : Attribute} {text : String} {optional : Bool}

/-! ## Primitive attributes -/

/-- The constructor of a kind among `primitiveConstructors`, for kinds that are texts and known. -/
def constructorOf? : Value → Option String
  | .str k => Entries.get? k primitiveConstructors
  | _ => none

/-- A primitive attribute of a known kind is written as a call of its constructor. -/
theorem primitive_of_some {constructor : String} (h : constructorOf? kind = some constructor) :
    primitive kind o = do return construct constructor [← options o] := by
  unfold constructorOf? at h
  split at h
  · unfold primitive
    rw [if_neg (by exact Bool.false_ne_true)]
    simp only
    rw [h]
  · cases h

/-- A primitive attribute of a kind without constructor cannot be written: `primitive` throws an
error. -/
theorem primitive_of_none (h : constructorOf? kind = none) :
    ∃ error, primitive kind o = throw error := by
  unfold primitive
  split_ifs
  · exact ⟨_, rfl⟩
  · cases kind with
    | scalar s =>
      cases s with
      | str k =>
        have h : Entries.get? k primitiveConstructors = none := h
        simp only
        rw [h]
        exact ⟨_, rfl⟩
      | _ => exact ⟨_, rfl⟩
    | _ => exact ⟨_, rfl⟩

/-- The constructor of a kind is a name that makes this kind, and no other constructor has it. -/
theorem kindOf?_of_mem {k constructor : String} (h : (k, constructor) ∈ primitiveConstructors) :
    isName constructor = true ∧ constructor ≠ "Optional" ∧ kindOf? constructor = some k := by
  simp only [primitiveConstructors, List.mem_cons, Prod.mk.injEq, List.not_mem_nil, or_false] at h
  rcases h with ⟨rfl, rfl⟩ | ⟨rfl, rfl⟩ | ⟨rfl, rfl⟩ | ⟨rfl, rfl⟩
  all_goals exact ⟨by decide, by decide, rfl⟩

/-- A call of the constructor of a kind makes an attribute of the kind, with the settings of its
arguments. -/
theorem loadAttribute_primitive {k constructor : String} {arguments : List Value}
    (h : (k, constructor) ∈ primitiveConstructors)
    (ho : loadOptions builderName arguments = .ok o) :
    loadAttribute builderName (.call [builderName, constructor] arguments)
      = .ok (.primitive (.str k) o, false) := by
  obtain ⟨-, hne, hkind⟩ := kindOf?_of_mem h
  unfold loadAttribute
  rw [if_neg (by decide), if_neg hne, hkind]
  simp only
  rw [ho]
  rfl

/-- What is written for a primitive attribute does not depend on the table. -/
theorem isSteady_primitive (kind : Value) (o : Options) : IsSteady (primitive kind o) := by
  cases h : constructorOf? kind with
  | none =>
    obtain ⟨error, heq⟩ := primitive_of_none (o := o) h
    rw [heq]
    exact isSteady_throw _
  | some constructor =>
    rw [primitive_of_some h]
    exact isSteady_bind (isSteady_options _) fun _ => isSteady_pure _

/-- The text that `primitive` writes is read back as the attribute, settings included. -/
theorem loadsAs_primitive (h : (primitive kind o).result = .ok text) :
    LoadsAs text (.primitive kind o) false := by
  cases hkind : constructorOf? kind with
  | none =>
    obtain ⟨error, heq⟩ := primitive_of_none (o := o) hkind
    rw [heq] at h
    cases h
  | some constructor =>
    rw [primitive_of_some hkind, result_bind_eq_ok (isSteady_options _) fun _ => isSteady_pure _]
      at h
    obtain ⟨argument, hargument, h⟩ := h
    cases h
    obtain ⟨harguments, hload⟩ := denotes_options hargument
    -- The constructor that is written is one of the table, and so the loader finds its kind.
    unfold constructorOf? at hkind
    split at hkind
    · have hmem := Entries.mem_of_get? hkind
      refine ⟨.call [builderName, constructor] (optionArguments o),
        denotes_construct (kindOf?_of_mem hmem).1 harguments, ?_⟩
      exact loadAttribute_primitive hmem hload
    · cases hkind

/-! ## Optional attributes and sets -/

/-- What is wrapped as optional is read back as optional, and what is not is not. -/
theorem LoadsAs.wrapOptional (h : LoadsAs text a false) (optional : Bool) :
    LoadsAs (wrapOptional text optional) a optional := by
  cases optional with
  | false => exact h
  | true =>
    obtain ⟨v, hv, hload⟩ := h
    have hname : isName "Optional" = true := by decide
    refine ⟨.call [builderName, "Optional"] [v],
      denotes_construct hname (denotes_arguments (.cons hv .nil)), ?_⟩
    show ((loadAttribute builderName v).bind fun p => Except.ok (p.1, true)) = _
    rw [hload]
    rfl

/-- A set of a primitive kind is read back as it is, with the settings of its items and its own. -/
theorem loadsAs_set {items argument : String} {o' : Options}
    (hi : LoadsAs items (.primitive kind o) false) (ho : (options o').result = .ok argument) :
    LoadsAs (construct "Set" [items, argument]) (.set (.primitive kind o) o') false := by
  obtain ⟨v, hv, hload⟩ := hi
  obtain ⟨harguments, hoptions⟩ := denotes_options ho
  have hname : isName "Set" = true := by decide
  refine ⟨.call [builderName, "Set"] (v :: optionArguments o'), denotes_construct hname ?_, ?_⟩
  · rw [List.filter_cons_of_pos (by rw [hv.ne_empty]; rfl)]
    exact .cons hv harguments
  · show ((loadAttribute builderName v).bind fun p =>
      (makeSet builderName p.1 (optionArguments o')).bind fun a => Except.ok (a, false)) = _
    rw [hload]
    show (((loadOptions builderName (optionArguments o')).bind fun o' =>
      Except.ok (Attribute.set (.primitive kind o) o')).bind fun a => Except.ok (a, false)) = _
    rw [hoptions]
    rfl

end Source

/-! ## Attributes and trees -/

variable {P : Value → Prop} {text : String} {keys : List String}

mutual

/-- What is written for a regular attribute does not depend on the table. -/
theorem Attribute.isSteady_toSource (a : Attribute) (h : a.IsRegular P) (optional : Bool) :
    IsSteady (a.toSource optional) := by
  -- The recursion is the one of the encoder, together with that of `membersToSource`.
  cases a with
  | primitive kind o =>
    exact isSteady_bind (Source.isSteady_primitive kind o) fun _ => isSteady_pure _
  | set items o =>
    cases h with
    | set =>
      exact isSteady_bind (isSteady_bind (Source.isSteady_primitive _ _) fun _ =>
        isSteady_pure _) fun _ => isSteady_bind (Source.isSteady_options o) fun _ =>
          isSteady_pure _
  | record properties keys =>
    cases h with
    | record hn h =>
      exact isSteady_bind (isSteady_membersToSource properties h keys) fun _ => isSteady_pure _
  | relation cardinality target query =>
    cases h with
    | relation hc hw ho => exact Source.isSteady_relation cardinality _ query
  | foreign v => exact isSteady_throw _

/-- What is written for the members of a regular tree does not depend on the table. -/
theorem isSteady_membersToSource (properties : List (String × Attribute))
    (h : ∀ p ∈ properties, p.2.IsRegular P) (keys : List String) :
    IsSteady (membersToSource keys properties) := by
  cases properties with
  | nil => exact isSteady_pure _
  | cons p rest =>
    exact isSteady_bind (Attribute.isSteady_toSource p.2 (h p List.mem_cons_self) _) fun _ =>
      isSteady_bind (isSteady_quote _) fun _ =>
        isSteady_bind (isSteady_membersToSource rest
          (fun q hq => h q (List.mem_cons_of_mem p hq)) keys) fun _ => isSteady_pure _

end

/-- A record is written exactly when its members are, and then its text is made of theirs. -/
theorem result_record {properties : List (String × Attribute)}
    (h : ∀ p ∈ properties, p.2.IsRegular P) {optional : Bool} :
    ((Attribute.record properties keys).toSource optional).result = .ok text ↔
      ∃ lines, (membersToSource keys properties).result = .ok lines ∧
        Source.wrapOptional (Source.tree "Record" lines) optional = text := by
  rw [Attribute.toSource, result_bind_eq_ok (isSteady_membersToSource properties h keys)
    fun _ => isSteady_pure _]
  simp only [result_pure, Except.ok.injEq]

/-- The members of a tree are written exactly when the first one is and the others are. -/
theorem result_membersToSource_cons {key : String} {a : Attribute}
    {rest : List (String × Attribute)} (ha : a.IsRegular P) (h : ∀ p ∈ rest, p.2.IsRegular P)
    {lines : List String} :
    (membersToSource keys ((key, a) :: rest)).result = .ok lines ↔
      ∃ text more, (a.toSource (keys.contains key)).result = .ok text ∧
        (membersToSource keys rest).result = .ok more ∧
          (Json.quote key ++ ": " ++ text ++ ",") :: more = lines := by
  have hrest := isSteady_membersToSource rest h keys
  rw [membersToSource, result_bind_eq_ok (a.isSteady_toSource ha _) fun _ =>
    isSteady_bind (isSteady_quote _) fun _ => isSteady_bind hrest fun _ => isSteady_pure _]
  -- Each step of the encoder is steady, so that its result may be read off one bind at a time.
  constructor
  · rintro ⟨text, htext, h⟩
    obtain ⟨quoted, hquoted, h⟩ := (result_bind_eq_ok (isSteady_quote _) fun _ =>
      isSteady_bind hrest fun _ => isSteady_pure _).mp h
    rw [result_quote] at hquoted
    cases hquoted
    obtain ⟨more, hmore, h⟩ := (result_bind_eq_ok hrest fun _ => isSteady_pure _).mp h
    cases h
    exact ⟨text, more, htext, hmore, rfl⟩
  · rintro ⟨text, more, htext, hmore, rfl⟩
    refine ⟨text, htext, (result_bind_eq_ok (isSteady_quote _) fun _ =>
      isSteady_bind hrest fun _ => isSteady_pure _).mpr ⟨_, result_quote key, ?_⟩⟩
    exact (result_bind_eq_ok hrest fun _ => isSteady_pure _).mpr ⟨more, hmore, rfl⟩

/-- The loader makes a tree of a first member and of the others: the attribute comes first, and its
key is optional if its source says so. -/
theorem Source.loadMembers_cons {builder : String} {k : Scalar} {v : Value} {a : Attribute}
    {optional : Bool} {rest : List (Scalar × Value)} {t : AttributeTree}
    (h : loadAttribute builder v = .ok (a, optional)) (hs : loadMembers builder rest = .ok t) :
    loadMembers builder ((k, v) :: rest) = .ok ⟨(k.text, a) :: t.properties,
      if optional then k.text :: t.optional else t.optional⟩ := by
  rw [loadMembers, h]
  show ((loadMembers builder rest).bind fun t => _) = _
  rw [hs]
  rfl

/-- The lines are the members of an object, and `loadMembers` makes the tree of them. -/
def LoadsAsMembers (lines : List String) (properties : List (String × Attribute))
    (optional : List String) : Prop :=
  ∃ texts fields, lines = texts.map (· ++ ",") ∧ Entries.keys fields = Entries.keys properties ∧
    List.Forall₂ (Source.SpellsOne Source.IsMember) texts fields ∧
      Source.loadMembers Source.builderName (textEntries fields) = .ok ⟨properties, optional⟩

/-- A call with an object of members as its argument is loaded as their tree, if the keys are
distinct. -/
theorem LoadsAsMembers.tree {lines : List String} {properties : List (String × Attribute)}
    {optional : List String} (h : LoadsAsMembers lines properties optional)
    (hn : (Entries.keys properties).Nodup) {constructor : String}
    (hname : Source.isName constructor = true) :
    ∃ fields, Source.Denotes (Source.tree constructor lines)
        (.call [Source.builderName, constructor] [.record fields]) ∧
      Source.loadMembers Source.builderName (textEntries fields) = .ok ⟨properties, optional⟩ := by
  obtain ⟨texts, fields, rfl, hkeys, hspells, hload⟩ := h
  exact ⟨fields, Source.denotes_tree hname (hkeys ▸ hn) hspells, hload⟩

mutual

/-- A regular attribute is read back as `reloaded`, and as optional if it was and is no relation.
The induction is on the attribute. -/
theorem Attribute.loadsAs_toSource (a : Attribute) (h : a.IsRegular P)
    {optional : Bool} {text : String} (ht : (a.toSource optional).result = .ok text) :
    Source.LoadsAs text a.reloaded (optional && !a.isRelation) := by
  cases a with
  | primitive kind o =>
    -- A regular attribute is written in steps that are steady, so each has given its own text.
    obtain ⟨inner, hinner, heq⟩ := (result_bind_eq_ok (Source.isSteady_primitive kind o)
      fun _ => isSteady_pure _).mp ht
    cases heq
    show Source.LoadsAs _ _ (optional && true)
    rw [Bool.and_true]
    exact (Source.loadsAs_primitive hinner).wrapOptional optional
  | set items o =>
    cases h with
    | @set kind o' _ =>
      obtain ⟨inner, hinner, ht⟩ := (result_bind_eq_ok (isSteady_bind
        (Source.isSteady_primitive _ _) fun _ => isSteady_pure _) fun _ =>
          isSteady_bind (Source.isSteady_options o) fun _ => isSteady_pure _).mp ht
      obtain ⟨argument, hargument, heq⟩ := (result_bind_eq_ok (Source.isSteady_options o)
        fun _ => isSteady_pure _).mp ht
      cases heq
      obtain ⟨items, hitems, heq⟩ := (result_bind_eq_ok (Source.isSteady_primitive kind o')
        fun _ => isSteady_pure _).mp hinner
      cases heq
      show Source.LoadsAs _ _ (optional && true)
      rw [Bool.and_true]
      exact (Source.loadsAs_set (Source.loadsAs_primitive hitems) hargument).wrapOptional optional
  | record properties keys =>
    cases h with
    | record hn h =>
      obtain ⟨lines, hlines, rfl⟩ := (result_record h).mp ht
      have hmembers := loadsAs_membersToSource properties h hlines
      -- The object of a record is written as that of a collection, with another builder around it.
      have hname : Source.isName "Record" = true := by decide
      obtain ⟨fields, hfields, hload⟩ :=
        hmembers.tree ((keys_reloadedProperties properties).symm ▸ hn) hname
      show Source.LoadsAs _ _ (optional && true)
      rw [Bool.and_true]
      refine Source.LoadsAs.wrapOptional ⟨_, hfields, ?_⟩ optional
      show ((Source.loadMembers Source.builderName (textEntries fields)).bind fun t =>
        Except.ok (t.toRecord, false)) = _
      rw [hload]
      rfl
  | relation cardinality target query =>
    cases h with
    | relation hc hw ho =>
      -- A relation is never wrapped, so it is read back as one that is not optional.
      show Source.LoadsAs _ _ (optional && false)
      rw [Bool.and_false]
      exact Source.loadsAs_relation hc ht
  | foreign v => cases ht

/-- The members of a regular tree are read back as what a module keeps of the tree. -/
theorem loadsAs_membersToSource (properties : List (String × Attribute))
    (h : ∀ p ∈ properties, p.2.IsRegular P) {keys lines : List String}
    (ht : (membersToSource keys properties).result = .ok lines) :
    LoadsAsMembers lines (reloadedProperties properties) (ownOptional keys properties) := by
  cases properties with
  | nil =>
    cases ht
    exact ⟨[], [], rfl, rfl, .nil, rfl⟩
  | cons p rest =>
    obtain ⟨key, a⟩ := p
    have ha := h _ List.mem_cons_self
    have hrest := fun q hq => h q (List.mem_cons_of_mem (key, a) hq)
    obtain ⟨text, more, htext, hmore, rfl⟩ := (result_membersToSource_cons ha hrest).mp ht
    -- The proof recurses as the writer does: into the attribute here, and into the others below.
    obtain ⟨v, hv, hload⟩ := a.loadsAs_toSource ha htext
    obtain ⟨texts, fields, rfl, hkeys, hspells, hloads⟩ := loadsAs_membersToSource rest hrest hmore
    refine ⟨(Json.quote key ++ ": " ++ text) :: texts, (key, v) :: fields, rfl,
      congrArg (key :: ·) hkeys, .cons (Source.spellsOne_quote key hv) hspells, ?_⟩
    refine (Source.loadMembers_cons (k := .str key) hload hloads).trans ?_
    rw [ownOptional_cons]
    rfl

end

/-! ## Writing what was read back -/

/-- The text of a relation does not say whether it is optional. -/
theorem Attribute.toSource_of_isRelation {a : Attribute} (h : a.isRelation = true)
    (optional optional' : Bool) : a.toSource optional = a.toSource optional' := by
  cases a with
  | relation cardinality target query => rfl
  | _ => cases h

/-- Among distinct keys, those that are kept as optional are those of attributes that were optional
and are no relations. -/
theorem contains_ownOptional {properties : List (String × Attribute)}
    (hn : (Entries.keys properties).Nodup) {p : String × Attribute} (hp : p ∈ properties)
    (keys : List String) :
    (ownOptional keys properties).contains p.1 = (keys.contains p.1 && !p.2.isRelation) := by
  rw [Bool.eq_iff_iff, List.contains_iff_mem, mem_ownOptional, Bool.and_eq_true,
    List.contains_iff_mem, Bool.not_eq_true']
  refine and_congr_right fun _ => ⟨?_, fun h => ⟨p.2, hp, h⟩⟩
  rintro ⟨a, ha, hrelation⟩
  have hsame := Entries.get?_of_mem hn ha
  rw [Entries.get?_of_mem hn hp, Option.some.injEq] at hsame
  rw [hsame, hrelation]

mutual

/-- What is kept of a regular attribute is written like the attribute. The induction is on the
attribute. -/
theorem Attribute.toSource_reloaded (a : Attribute) (h : a.IsRegular Value.IsCarried)
    {optional : Bool} {text : String} (ht : (a.toSource optional).result = .ok text) :
    (a.reloaded.toSource optional).result = .ok text := by
  cases a with
  | primitive kind o => exact ht
  | set items o => exact ht
  | record properties keys =>
    have hagain := h.reloaded
    cases h with
    | record hn h =>
      cases hagain with
      | record _ hagain =>
        obtain ⟨lines, hlines, rfl⟩ := (result_record h).mp ht
        refine (result_record hagain).mpr ⟨lines, ?_, rfl⟩
        -- Only relations are not among the optional keys any more, and these are written without
        -- them.
        refine membersToSource_reloaded properties h hlines fun p hp => ?_
        rw [contains_ownOptional hn hp]
        cases hrelation : p.2.isRelation with
        | true => exact .inl rfl
        | false => exact .inr (Bool.and_true _)
  | relation cardinality target query =>
    cases h with
    | relation hc hw ho => exact Source.relation_reloaded ⟨hw, ho⟩ ht
  | foreign v => cases ht

/-- What is kept of the attributes of a tree is written like them, if the same ones are wrapped as
optional. -/
theorem membersToSource_reloaded (properties : List (String × Attribute))
    (h : ∀ p ∈ properties, p.2.IsRegular Value.IsCarried) {keys keys' lines : List String}
    (ht : (membersToSource keys properties).result = .ok lines)
    (hkeys : ∀ p ∈ properties, p.2.isRelation = true ∨ keys'.contains p.1 = keys.contains p.1) :
    (membersToSource keys' (reloadedProperties properties)).result = .ok lines := by
  cases properties with
  | nil => exact ht
  | cons p rest =>
    obtain ⟨key, a⟩ := p
    have ha := h _ List.mem_cons_self
    have hrest := fun q hq => h q (List.mem_cons_of_mem (key, a) hq)
    obtain ⟨text, more, htext, hmore, rfl⟩ := (result_membersToSource_cons ha hrest).mp ht
    have htext := a.toSource_reloaded ha htext
    have hmore := membersToSource_reloaded rest hrest hmore
      fun q hq => hkeys q (List.mem_cons_of_mem _ hq)
    -- What is kept is regular again, so it is written line by line as well.
    have hagain : ∀ q ∈ reloadedProperties rest, q.2.IsRegular fun _ => True := by
      intro q hq
      rw [reloadedProperties_eq_map] at hq
      obtain ⟨p, hp, rfl⟩ := List.mem_map.mp hq
      exact (hrest p hp).reloaded
    refine (result_membersToSource_cons ha.reloaded hagain).mpr ⟨text, more, ?_, hmore, rfl⟩
    rcases hkeys _ List.mem_cons_self with hrelation | hsame
    · rwa [Attribute.toSource_of_isRelation (a.isRelation_reloaded.trans hrelation) _
        (keys.contains key)]
    · rwa [hsame]

end

end SchemaForge
