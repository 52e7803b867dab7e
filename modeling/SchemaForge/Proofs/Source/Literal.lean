import SchemaForge.Proofs.Json.Image
import SchemaForge.Proofs.Source.Quotes

/-!
# Literals and options as they are read back

The text of a literal (section 4.1 of the specification) denotes the literal, and that of a default
or of the options of an attribute denotes what the loader makes the same default or options of.
Embedded JSON denotes what `reloaded` says of the value.
-/

namespace SchemaForge

/-- What is read back of a value that a module carries as JSON: the `image` of its tree. -/
def Value.reloaded (v : Value) : Value := Json.image v.spread

/-- A value can be carried by a module: it is proper, and the keys in its mappings have distinct
texts. -/
structure Value.IsCarried (v : Value) : Prop where
  /-- It is proper. -/
  isProper : v.IsProper
  /-- The keys in its mappings have distinct texts. -/
  distinctKeys : Json.DistinctKeys v.spread

namespace Source

open Encoder

variable {v : Value} {vs : List Value} {text : String} {texts : List String} {o : Options}

/-! ## Literals -/

/-- What `literal` writes does not depend on the table, since it quotes texts only. -/
theorem isSteady_literal (v : Value) : IsSteady (literal v) := by
  unfold literal
  split
  · exact isSteady_pure _
  · exact isSteady_pure _
  · exact isSteady_quote _
  · exact isSteady_pure _
  · split_ifs
    · exact isSteady_pure _
    · exact isSteady_throw _
  · exact isSteady_throw _

/-- The text that `literal` writes for a value denotes this value. -/
theorem denotes_literal (h : (literal v).result = .ok text) : Denotes text v := by
  unfold literal at h
  split at h
  · cases h
    exact denotes_constant (by simp [constants])
  · rename_i b
    cases h
    cases b <;> exact denotes_constant (by simp [constants])
  · rw [result_quote] at h
    cases h
    exact denotes_quote _
  · cases h
    exact denotes_intText _
  · split_ifs at h with hx
    · cases h
      exact denotes_text _ hx
    · cases h
  · cases h

/-- The encoder `literal` writes scalars only. -/
theorem isScalar_of_literal (h : (literal v).result = .ok text) : ∃ s, v = .scalar s := by
  unfold literal at h
  split at h
  all_goals first
    | exact ⟨_, rfl⟩
    | cases h

/-- What is written for several literals does not depend on the table of quotes. -/
theorem isSteady_literals (vs : List Value) : IsSteady (literals vs) := by
  induction vs with
  | nil => exact isSteady_pure _
  | cons v rest ih =>
    exact isSteady_bind (isSteady_literal v) fun _ => isSteady_bind ih fun _ => isSteady_pure _

/-- The texts that `literals` writes denote the values one by one. -/
theorem denotes_literals (h : (literals vs).result = .ok texts) :
    List.Forall₂ Denotes texts vs := by
  induction vs generalizing texts with
  | nil =>
    cases h
    exact .nil
  | cons v rest ih =>
    -- What the later texts are does not depend on the quotes that the earlier ones leave.
    rw [literals, result_bind_eq_ok (isSteady_literal v)
      fun _ => isSteady_bind (isSteady_literals rest) fun _ => isSteady_pure _] at h
    obtain ⟨text, htext, h⟩ := h
    rw [result_bind_eq_ok (isSteady_literals rest) fun _ => isSteady_pure _] at h
    obtain ⟨texts, htexts, h⟩ := h
    cases h
    exact .cons (denotes_literal htext) (ih htexts)

/-- A text that denotes a value has a token and is not empty. -/
theorem Denotes.ne_empty (h : Denotes text v) : text.isEmpty = false := by
  obtain ⟨ss, hs, hd⟩ := h
  rw [Bool.eq_false_iff]
  intro he
  rw [String.isEmpty_iff.mp he] at hs
  cases hs
  exact hd.ne_nil rfl

/-- Arguments that denote values are not empty, so that none of them is left out. -/
theorem denotes_arguments (h : List.Forall₂ Denotes texts vs) :
    List.Forall₂ Denotes (texts.filter (!·.isEmpty)) vs := by
  induction h with
  | nil => exact .nil
  | cons h _ ih =>
    rw [List.filter_cons_of_pos (by rw [h.ne_empty]; rfl)]
    exact .cons h ih

/-! ## Defaults -/

/-- What the text of a default denotes: a call for a function, and the value itself otherwise. -/
def denotedDefault : Value → Value
  | .function name arguments => .call [builderName, "Default", name] arguments
  | v => v

/-- A default that is no function is written as a `literal`. -/
theorem default_eq_literal (h : ∀ name arguments, v ≠ .function name arguments) :
    default v = literal v := by
  unfold default
  split
  · exact absurd rfl (h _ _)
  · rfl

/-- A default that is a function is written as a call of it, if the function is one of
`defaultFunctions`, and refused otherwise. -/
theorem default_function (name : String) (arguments : List Value) :
    default (.function name arguments) =
      if defaultFunctions.contains name then do
        let texts ← literals arguments
        return builderName ++ ".Default." ++ name ++ "(" ++ Text.join ", " texts ++ ")"
      else throw (.refused (.function name)) := by
  rw [default]
  cases defaultFunctions.contains name <;> rfl

/-- The result of `default v` does not depend on the table of quotes. -/
theorem isSteady_default (v : Value) : IsSteady (default v) := by
  by_cases h : ∃ name arguments, v = .function name arguments
  · obtain ⟨name, arguments, rfl⟩ := h
    rw [default_function]
    split_ifs
    · exact isSteady_bind (isSteady_literals _) fun _ => isSteady_pure _
    · exact isSteady_throw _
  · rw [default_eq_literal fun name arguments hv => h ⟨name, arguments, hv⟩]
    exact isSteady_literal v

/-- The text of a default denotes `denotedDefault`, of which `loadDefault` makes the same
default. -/
theorem denotes_default (h : (default v).result = .ok text) :
    Denotes text (denotedDefault v) ∧ loadDefault builderName (denotedDefault v) = .ok v := by
  by_cases hv : ∃ name arguments, v = .function name arguments
  · obtain ⟨name, arguments, rfl⟩ := hv
    rw [default_function] at h
    split_ifs at h with hname
    · rw [result_bind_eq_ok (isSteady_literals _) fun _ => isSteady_pure _] at h
      obtain ⟨texts, htexts, h⟩ := h
      cases h
      -- The two known functions are called by names that the tokenizer takes for such.
      have hisName : isName name = true := by
        simp only [defaultFunctions, List.contains_eq_mem, List.mem_cons, List.not_mem_nil,
          or_false, decide_eq_true_eq] at hname
        rcases hname with rfl | rfl <;> decide
      exact ⟨denotes_defaultCall hisName (denotes_literals htexts), rfl⟩
    · cases h
  · rw [default_eq_literal fun name arguments heq => hv ⟨name, arguments, heq⟩] at h
    obtain ⟨s, rfl⟩ := isScalar_of_literal h
    exact ⟨denotes_literal h, rfl⟩

/-! ## Members that may be absent -/

/-- Members of an inline object, as keys with written values, spell the fields that are read
back. -/
def SpellsMembers (members : List (String × String)) (fields : List (String × Value)) : Prop :=
  List.Forall₂ (SpellsOne IsMember) (members.map fun m => m.1 ++ ": " ++ m.2) fields

/-- Members that spell entries may be followed by others, which spell the entries behind them. -/
theorem SpellsMembers.append {ms ns : List (String × String)} {fs gs : List (String × Value)}
    (h : SpellsMembers ms fs) (h' : SpellsMembers ns gs) : SpellsMembers (ms ++ ns) (fs ++ gs) := by
  unfold SpellsMembers
  rw [List.map_append]
  exact List.rel_append h h'

/-- The member of an inline object under a name, unless it is absent. This is the form that options
and queries are written in. -/
def memberUnless (absent : Bool) (name : String) (e : Encoder String) :
    Encoder (List (String × String)) :=
  if absent then pure [] else do return [(name, ← e)]

/-- The member of a mapping under a name, unless it is absent, as it is read back. -/
def fieldUnless (absent : Bool) (name : String) (v : Value) : List (String × Value) :=
  if absent then [] else [(name, v)]

variable {absent : Bool} {name : String} {e : Encoder String} {members : List (String × String)}

/-- What is written for a member does not depend on the table if what is written for its value does
not. -/
theorem isSteady_memberUnless (he : absent = false → IsSteady e) :
    IsSteady (memberUnless absent name e) := by
  unfold memberUnless
  split_ifs with h
  · exact isSteady_pure _
  · exact isSteady_bind (he (Bool.eq_false_iff.mpr h)) fun _ => isSteady_pure _

/-- A member that `memberUnless` writes spells the one of `fieldUnless`. -/
theorem spells_memberUnless (hname : isName name = true) (hclose : name ∉ closers)
    (he : absent = false → IsSteady e)
    (hd : ∀ {text}, absent = false → e.result = .ok text → Denotes text v)
    (h : (memberUnless absent name e).result = .ok members) :
    SpellsMembers members (fieldUnless absent name v) := by
  unfold memberUnless at h
  unfold fieldUnless SpellsMembers
  split_ifs at h ⊢ with ha
  · cases h
    exact .nil
  · have ha : absent = false := Bool.eq_false_iff.mpr ha
    rw [result_bind_eq_ok (he ha) fun _ => isSteady_pure _] at h
    obtain ⟨text, htext, h⟩ := h
    cases h
    exact .cons (spellsOne_name hname hclose (hd ha htext)) .nil

/-! ## Options -/

/-- The members of the object that sets options, as they are read back. -/
def optionFields (o : Options) : List (String × Value) :=
  fieldUnless o.nullable.isNull "nullable" o.nullable
    ++ fieldUnless o.default.isNone "default" (denotedDefault (o.default.getD .null))

/-- The arguments that set options: one object, or none if there is nothing to set. -/
def optionArguments (o : Options) : List Value :=
  if (optionFields o).isEmpty then [] else [.record (optionFields o)]

/-- The encoder `options` writes two members that may be absent. -/
theorem options_eq (o : Options) :
    options o = do
      let nullable ← memberUnless o.nullable.isNull "nullable" (literal o.nullable)
      let default ← memberUnless o.default.isNone "default" (default (o.default.getD .null))
      return if (nullable ++ default).isEmpty then "" else inlineObject (nullable ++ default) := by
  obtain ⟨nullable, d⟩ := o
  unfold options memberUnless
  cases nullable.isNull <;> cases d <;> simp

/-- What `options` writes does not depend on the table of quotes. -/
theorem isSteady_options (o : Options) : IsSteady (options o) := by
  rw [options_eq]
  exact isSteady_bind (isSteady_memberUnless fun _ => isSteady_literal _) fun _ =>
    isSteady_bind (isSteady_memberUnless fun _ => isSteady_default _) fun _ => isSteady_pure _

/-- The members that set options (`optionFields`) have distinct keys. -/
theorem nodup_optionFields (o : Options) : (Entries.keys (optionFields o)).Nodup := by
  unfold optionFields fieldUnless
  split_ifs <;> simp [Entries.keys]

/-- The loader `loadOptions` makes the same options of the arguments that set them. -/
theorem loadOptions_optionArguments
    (hd : ∀ d, o.default = some d → loadDefault builderName (denotedDefault d) = .ok d) :
    loadOptions builderName (optionArguments o) = .ok o := by
  obtain ⟨nullable, d⟩ := o
  unfold optionArguments optionFields fieldUnless
  -- Which of the two settings are written decides what the argument is, so there are four cases.
  cases hn : nullable.isNull with
  | true =>
    cases Value.eq_null_of_isNull hn
    cases d with
    | none => rfl
    | some d =>
      show loadDefault builderName (denotedDefault d) >>= _ = _
      rw [hd d rfl]
      rfl
  | false =>
    cases d with
    | none => rfl
    | some d =>
      show loadDefault builderName (denotedDefault d) >>= _ = _
      rw [hd d rfl]
      rfl

/-- The text of options denotes the arguments that set them, if it is not empty, and `loadOptions`
makes the same options of these. -/
theorem denotes_options (h : (options o).result = .ok text) :
    List.Forall₂ Denotes ([text].filter (!·.isEmpty)) (optionArguments o) ∧
      loadOptions builderName (optionArguments o) = .ok o := by
  have hnullable : o.nullable.isNull = false → IsSteady (literal o.nullable) :=
    fun _ => isSteady_literal _
  have hdefault : o.default.isNone = false → IsSteady (default (o.default.getD .null)) :=
    fun _ => isSteady_default _
  rw [options_eq, result_bind_eq_ok (isSteady_memberUnless hnullable)
    fun _ => isSteady_bind (isSteady_memberUnless hdefault) fun _ => isSteady_pure _] at h
  obtain ⟨ns, hns, h⟩ := h
  rw [result_bind_eq_ok (isSteady_memberUnless hdefault) fun _ => isSteady_pure _] at h
  obtain ⟨ds, hds, h⟩ := h
  have hload : loadOptions builderName (optionArguments o) = .ok o := by
    refine loadOptions_optionArguments fun d hd => ?_
    rw [memberUnless, hd, if_neg (by simp),
      result_bind_eq_ok (isSteady_default _) fun _ => isSteady_pure _] at hds
    obtain ⟨text, htext, -⟩ := hds
    exact (denotes_default htext).2
  have hfields := SpellsMembers.append
    (spells_memberUnless (by decide) (by decide) hnullable (fun _ h => denotes_literal h) hns)
    (spells_memberUnless (by decide) (by decide) hdefault (fun _ h => (denotes_default h).1) hds)
  refine ⟨?_, hload⟩
  cases h
  have hnodup := nodup_optionFields o
  unfold optionArguments
  unfold optionFields at hnodup ⊢
  -- There is an object only if there are members, and the fields are as many.
  generalize fieldUnless o.nullable.isNull "nullable" o.nullable
    ++ fieldUnless o.default.isNone "default" (denotedDefault (o.default.getD .null)) = fields
    at hnodup hfields ⊢
  generalize ns ++ ds = members at hfields ⊢
  cases members with
  | nil =>
    cases hfields
    exact .nil
  | cons m members =>
    have hobject := denotes_inlineObject hnodup hfields
    cases hfields with
    | cons hm hms =>
      rw [if_neg (by simp), if_neg (by simp), List.filter_cons_of_pos (by simp [hobject.ne_empty])]
      exact .cons hobject .nil

/-! ## Embedded values -/

/-- What is embedded denotes what is read back, `Value.reloaded`. -/
theorem denotes_embedded {indent : Option ℤ} (h : embedded v indent = .ok text) :
    Denotes text v.reloaded := by
  unfold embedded Json.write at h
  split at h
  · rename_i htext
    cases h
    exact Json.denotes_write rfl v.spread 0 htext
  · cases h

/-- What is read back of a value with distinct keys is embedded like the value. -/
theorem embedded_reloaded {indent : Option ℤ} (hk : Json.DistinctKeys v.spread)
    (h : embedded v indent = .ok text) : embedded v.reloaded indent = .ok text := by
  unfold embedded Json.write at h ⊢
  split at h
  · rename_i htext
    cases h
    rw [Value.reloaded, (Json.isTree_image v.spread).spread, Json.write_image _ _ htext hk]
  · cases h

end Source

end SchemaForge
