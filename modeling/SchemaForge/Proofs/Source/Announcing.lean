import SchemaForge.Proofs.Schema.ReadForm
import SchemaForge.Proofs.Source.Module

/-!
# Writing a schema does not break down

A schema that is read of a document is written as a module, or an error of section 7 of the
specification says what of it cannot be written (`isAnnounced_encodeModule`), whatever values it
holds: kinds and targets are texts by then, and what has no JSON text is refused.
-/

namespace SchemaForge

namespace Encoder

variable {α β : Type} {e : Encoder α} {f : α → Encoder β}

/-- Whatever is in the table, the encoder has a result or refuses, and never breaks down. -/
def IsAnnounced (e : Encoder α) : Prop := ∀ t, Outcome.IsAnnounced (e.run t)

/-- An encoder that only gives a result with `pure` is announced. -/
theorem isAnnounced_pure (a : α) : IsAnnounced (pure a) := fun t => Outcome.isAnnounced_ok (a, t)

/-- An encoder that only refuses, with a cause of `Unencodable`, is announced. -/
theorem isAnnounced_throw (cause : Unencodable) :
    IsAnnounced (throw (.refused cause) : Encoder α) := fun _ => Outcome.isAnnounced_refuse cause

/-- To quote a text is announced: a text can always be looked up and written. -/
theorem isAnnounced_quote (s : String) : IsAnnounced (quote (.str s)) := by
  intro t
  have hquote : plainQuote (.str s) = .ok (Json.quote s) := rfl
  show Outcome.IsAnnounced (quote (.str s) t)
  unfold quote
  rw [hquote, if_neg (by exact Bool.false_ne_true)]
  split <;> exact Outcome.isAnnounced_ok _

/-- A sequence of encoders is announced if the first one is, and the second one for every result of
the first. -/
theorem IsAnnounced.bind (he : IsAnnounced e) (hf : ∀ a, IsAnnounced (f a)) :
    IsAnnounced (e >>= f) := by
  intro t
  rw [run_bind]
  exact (he t).bind fun p _ => hf p.1 p.2

/-- An encoder that `IsAnnounced` stays so when its result is changed. -/
theorem IsAnnounced.map (he : IsAnnounced e) (g : α → β) : IsAnnounced (do return g (← e)) :=
  he.bind fun a => isAnnounced_pure (g a)

/-- The `result` of an encoder that is announced is announced. -/
theorem IsAnnounced.result (he : IsAnnounced e) : Outcome.IsAnnounced e.result :=
  (he {}).bind fun p _ => Outcome.isAnnounced_ok p.1

end Encoder

namespace Source

open Encoder

/-! ## Parts of attributes -/

/-- The encoder `literal v` writes a value or refuses it, whatever kind of value it is. -/
theorem isAnnounced_literal (v : Value) : IsAnnounced (literal v) := by
  unfold literal
  split
  · exact isAnnounced_pure _
  · exact isAnnounced_pure _
  · exact isAnnounced_quote _
  · exact isAnnounced_pure _
  · split_ifs
    · exact isAnnounced_pure _
    · exact isAnnounced_throw _
  · exact isAnnounced_throw _

/-- The encoder `literals vs` writes all values or refuses the first that has no text. -/
theorem isAnnounced_literals (vs : List Value) : IsAnnounced (literals vs) := by
  induction vs with
  | nil => exact isAnnounced_pure _
  | cons v rest ih => exact (isAnnounced_literal v).bind fun text => ih.map (text :: ·)

/-- The encoder `default v` writes a default or refuses it, be it a call, a list or another
value. -/
theorem isAnnounced_default (v : Value) : IsAnnounced (default v) := by
  by_cases h : ∃ name arguments, v = .function name arguments
  · obtain ⟨name, arguments, rfl⟩ := h
    rw [default_function]
    split_ifs
    · exact (isAnnounced_literals arguments).map _
    · exact isAnnounced_throw _
  · rw [default_eq_literal fun name arguments heq => h ⟨name, arguments, heq⟩]
    exact isAnnounced_literal v

/-- The encoder `embedded v indent` writes a value as JSON or refuses it, as part of an encoder. -/
theorem isAnnounced_embedded (v : Value) (indent : Option ℤ) :
    IsAnnounced (liftM (embedded v indent) : Encoder String) := by
  unfold embedded
  split
  · exact isAnnounced_pure _
  · exact isAnnounced_throw _

/-- The encoder `memberUnless` is announced if the encoder of its member is. -/
theorem isAnnounced_memberUnless {absent : Bool} {name : String} {e : Encoder String}
    (he : IsAnnounced e) : IsAnnounced (memberUnless absent name e) := by
  unfold memberUnless
  split_ifs
  · exact isAnnounced_pure _
  · exact he.map _

/-- The encoder `options o` writes settings or refuses their default. -/
theorem isAnnounced_options (o : Options) : IsAnnounced (options o) := by
  rw [options_eq]
  exact (isAnnounced_memberUnless (isAnnounced_literal _)).bind fun _ =>
    (isAnnounced_memberUnless (isAnnounced_default _)).map _

/-- The encoder `subquery q` writes a query or refuses a part that has no JSON text. -/
theorem isAnnounced_subquery (q : Query) : IsAnnounced (subquery q) := by
  rw [subquery_eq]
  exact (isAnnounced_memberUnless (isAnnounced_embedded _ _)).bind fun _ =>
    (isAnnounced_memberUnless (isAnnounced_literal _)).bind fun _ =>
      (isAnnounced_memberUnless (isAnnounced_embedded _ _)).map _

/-- The encoder `relation` writes a relation or refuses it, if its target is a text. -/
theorem isAnnounced_relation (cardinality : Value) (target : String) (q : Query) :
    IsAnnounced (relation cardinality (.str target) q) := by
  unfold relation
  refine (isAnnounced_quote target).bind fun _ => ?_
  split
  · exact (isAnnounced_literal _).map _
  · exact (isAnnounced_subquery q).map _

/-- The encoder `primitive` writes an attribute or refuses it, if its kind is a text. -/
theorem isAnnounced_primitive (kind : String) (o : Options) :
    IsAnnounced (primitive (.str kind) o) := by
  unfold primitive
  rw [if_neg (by exact Bool.false_ne_true)]
  dsimp only
  split
  · exact (isAnnounced_options o).map _
  · exact isAnnounced_throw _

end Source

/-! ## Attributes, collections and schemas -/

open Encoder

mutual

/-- An attribute in the form of what is read (`IsRead`) is written by `toSource`, or refused. -/
theorem Attribute.IsRead.isAnnounced_toSource (a : Attribute) (h : a.IsRead) (optional : Bool) :
    IsAnnounced (a.toSource optional) := by
  -- The induction is on the attribute, together with the one on members, and `IsRead` leaves out
  -- foreign values.
  cases a with
  | primitive kind o =>
    cases h with
    | primitive => exact (Source.isAnnounced_primitive _ o).map _
  | set items o =>
    cases h with
    | set =>
      exact ((Source.isAnnounced_primitive _ _).map _).bind fun _ =>
        (Source.isAnnounced_options o).map _
  | record properties keys =>
    cases h with
    | record _ h => exact (isAnnounced_membersToSource properties h keys).map _
  | relation cardinality target query =>
    cases h with
    | relation => exact Source.isAnnounced_relation cardinality _ query
  | foreign v => cases h

/-- The attributes of a tree, in the form of what is read, are written, or the first one that cannot
be is refused. -/
theorem isAnnounced_membersToSource (properties : List (String × Attribute))
    (h : ∀ p ∈ properties, p.2.IsRead) (keys : List String) :
    IsAnnounced (membersToSource keys properties) := by
  cases properties with
  | nil => exact isAnnounced_pure _
  | cons p rest =>
    have hfirst := Attribute.IsRead.isAnnounced_toSource p.2 (h p List.mem_cons_self)
      (keys.contains p.1)
    have hrest := isAnnounced_membersToSource rest (fun q hq => h q (List.mem_cons_of_mem p hq))
      keys
    exact hfirst.bind fun _ => (isAnnounced_quote p.1).bind fun _ => hrest.map _

end

end SchemaForge
