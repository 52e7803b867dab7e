import SchemaForge.Proofs.Json.Representable
import SchemaForge.Proofs.Schema.ReadForm

/-!
# Which schemas can be written

The writer of modules makes demands of the parts of a schema: that a kind has a constructor, that a
value is a literal, that a function is known to the runtime, that a value is made of literals.
`Schema.demands` lists them in the order in which the parts are written. A schema that is read of a
document is written if all of them are met; if not, the writer refuses the first one that is not
met (`run_encodeModule`), and nothing else ever stops it.

Every encoder `Checks` its own demands, and a sequence of encoders those of its parts one after the
other, so the proof follows the writer function by function.
-/

namespace SchemaForge

/-! ## Demands -/

/-- What has to hold of a part of a schema so that it can be written. The demands of a schema stand
in the order in which the encoder checks them. -/
inductive Demand where
  /-- A kind has a constructor. -/
  | kind (kind : Value)
  /-- A value is a literal. -/
  | literal (v : Value)
  /-- A default calls a function that the runtime has. -/
  | function (name : String)
  /-- A value has a JSON text. -/
  | embedded (v : Value)

namespace Demand

/-- A demand is met: the kind has a constructor, the value is a literal, the function is known, or
the value is made of literals. -/
def IsMet : Demand → Prop
  | kind k => k ∈ [.str "string", .str "boolean", .str "number", .str "date"]
  | literal v => v.isLiteral = true
  | function name => name = "now" ∨ name = "uuid"
  | embedded v => v.IsRepresentable

/-- The error with which a schema is refused of which a demand is not met (section 7 of the
specification). -/
def error : Demand → Unencodable
  | kind k => .kind k.text
  | literal v => .value v
  | function name => .function name
  | embedded v => .value v

end Demand

/-- The first of several demands that is not met: all demands before it are. -/
def IsFirstUnmet (ds : List Demand) (d : Demand) : Prop :=
  ∃ before after, ds = before ++ d :: after ∧ (∀ e ∈ before, e.IsMet) ∧ ¬ d.IsMet

/-- The demands of a default: of a function that it is known and that its arguments are literals,
and of another value that it is a literal. -/
def demandsOfDefault : Value → List Demand
  | .function name arguments => .function name :: arguments.map .literal
  | v => [.literal v]

/-- The demands of settings, in the order of writing; the absent value is a literal. -/
def Options.demands (o : Options) : List Demand :=
  .literal o.nullable :: o.default.elim [] demandsOfDefault

/-- The demands of a relation: those of its id if it is written in the short form, and of its query
otherwise. -/
def Query.demands (cardinality : Value) (q : Query) : List Demand :=
  match Source.relationId? cardinality q with
  | some id => [.literal id]
  | none => [.embedded q.condition, .literal q.limit, .embedded q.order]

mutual

/-- The demands of an attribute, in the order in which its parts are written. -/
def Attribute.demands : Attribute → List Demand
  | .primitive kind o => .kind kind :: o.demands
  | .set items o => items.demands ++ o.demands
  | .record properties _ => demandsOfProperties properties
  | .relation cardinality _ query => query.demands cardinality
  | .foreign v => [.kind (.str v.kindName)]

/-- The demands of several attributes, one attribute after the other. -/
def demandsOfProperties : List (String × Attribute) → List Demand
  | [] => []
  | (_, a) :: rest => a.demands ++ demandsOfProperties rest

end

/-- The demands of a collection: those of its attributes and then that its rules can be embedded. -/
def Collection.demands (c : Collection) : List Demand :=
  demandsOfProperties c.schema.properties ++ [.embedded c.rules]

/-- The demands of a schema, in the order in which its parts are written. -/
def Schema.demands (s : Schema) : List Demand := s.collections.flatMap fun p => p.2.demands

/-- The demands of what is read of a document; without a schema there are none. -/
def demandsOf (s : Option Schema) : List Demand := s.elim [] Schema.demands

/-! ## The first demand that is not met -/

section First

variable {ds es : List Demand} {d d' : Demand}

/-- The first unmet demand stays the first one, whatever comes behind it. -/
theorem IsFirstUnmet.append_left (h : IsFirstUnmet ds d) : IsFirstUnmet (ds ++ es) d := by
  obtain ⟨before, after, rfl, hbefore, hd⟩ := h
  exact ⟨before, after ++ es, by rw [List.append_assoc, List.cons_append], hbefore, hd⟩

/-- The first unmet demand stays the first one behind others that are all met. -/
theorem IsFirstUnmet.append_right (hds : ∀ d ∈ ds, d.IsMet) (h : IsFirstUnmet es d) :
    IsFirstUnmet (ds ++ es) d := by
  obtain ⟨before, after, rfl, hbefore, hd⟩ := h
  refine ⟨ds ++ before, after, by rw [List.append_assoc], fun e he => ?_, hd⟩
  rcases List.mem_append.mp he with he | he
  · exact hds e he
  · exact hbefore e he

/-- A first unmet demand is one of the demands, and it is not met. -/
theorem IsFirstUnmet.exists_mem (h : IsFirstUnmet ds d) : ∃ d ∈ ds, ¬ d.IsMet := by
  obtain ⟨before, after, rfl, -, hd⟩ := h
  exact ⟨d, List.mem_append_right _ List.mem_cons_self, hd⟩

/-- There is one first unmet demand at most. -/
theorem IsFirstUnmet.unique (h : IsFirstUnmet ds d) (h' : IsFirstUnmet ds d') : d = d' := by
  obtain ⟨before, after, rfl, hbefore, hd⟩ := h
  obtain ⟨before', after', heq, hbefore', hd'⟩ := h'
  -- Of what stands before the two one is the longer, and would hold the other demand.
  rcases List.append_eq_append_iff.mp heq with
    ⟨_ | ⟨e, more⟩, rfl, htail⟩ | ⟨_ | ⟨e, more⟩, rfl, htail⟩
  · exact (List.cons.inj htail).1
  · rw [← (List.cons.inj htail).1] at hbefore'
    exact absurd (hbefore' d (List.mem_append_right _ List.mem_cons_self)) hd
  · exact (List.cons.inj htail).1.symm
  · rw [← (List.cons.inj htail).1] at hbefore
    exact absurd (hbefore d' (List.mem_append_right _ List.mem_cons_self)) hd'

end First

/-! ## Encoders that check demands -/

namespace Encoder

variable {α β : Type} {e : Encoder α} {f : α → Encoder β} {ds es : List Demand} {d : Demand}

/-- Whatever is in the table, the encoder has a result if the demands are met, and otherwise refuses
the first one that is not met. -/
structure Checks (e : Encoder α) (ds : List Demand) : Prop where
  /-- The table does not matter. -/
  isSteady : IsSteady e
  /-- All demands are met, or one is refused. -/
  outcome : ((∀ d ∈ ds, d.IsMet) ∧ ∃ a, e.result = .ok a) ∨
    ∃ d, IsFirstUnmet ds d ∧ e.result = .error (.refused d.error)

/-- An encoder that has a result in any case demands nothing. -/
theorem checks_pure (a : α) : Checks (pure a) [] :=
  ⟨isSteady_pure a, .inl ⟨fun _ hd => absurd hd List.not_mem_nil, a, rfl⟩⟩

/-- Quoting a text demands nothing. -/
theorem checks_quote (s : String) : Checks (quote (.str s)) [] :=
  ⟨isSteady_quote s, .inl ⟨fun _ hd => absurd hd List.not_mem_nil, _, result_quote s⟩⟩

/-- An encoder checks one more demand in front if this one is met. -/
theorem Checks.cons (he : Checks e ds) (hd : d.IsMet) : Checks e (d :: ds) := by
  have hfirst := List.forall_mem_singleton.mpr hd
  refine ⟨he.isSteady, ?_⟩
  rcases he.outcome with ⟨hds, a, ha⟩ | ⟨d', hd', herror⟩
  · exact .inl ⟨List.forall_mem_cons.mpr ⟨hd, hds⟩, a, ha⟩
  · exact .inr ⟨d', hd'.append_right hfirst, herror⟩

/-- An encoder that refuses a demand that is not met checks it, whatever demands come behind. -/
theorem checks_throw (hd : ¬ d.IsMet) :
    Checks (throw (.refused d.error) : Encoder α) (d :: ds) :=
  ⟨isSteady_throw _, .inr ⟨d, ⟨[], ds, rfl, fun _ he => absurd he List.not_mem_nil, hd⟩, rfl⟩⟩

/-- A sequence checks the demands of its parts one after the other, so that `>>=` appends them. -/
theorem Checks.bind (he : Checks e ds) (hf : ∀ a, Checks (f a) es) :
    Checks (e >>= f) (ds ++ es) := by
  have hsteady := fun a => (hf a).isSteady
  refine ⟨isSteady_bind he.isSteady hsteady, ?_⟩
  rw [result_bind he.isSteady hsteady]
  -- If the first encoder fails, the demands of the second one are not reached.
  rcases he.outcome with ⟨hds, a, ha⟩ | ⟨d, hd, herror⟩
  · rw [ha]
    rcases (hf a).outcome with ⟨hes, b, hb⟩ | ⟨d, hd, herror⟩
    · refine .inl ⟨fun d hd => ?_, b, hb⟩
      rcases List.mem_append.mp hd with hd | hd
      · exact hds d hd
      · exact hes d hd
    · exact .inr ⟨d, hd.append_right hds, herror⟩
  · rw [herror]
    exact .inr ⟨d, hd.append_left, rfl⟩

/-- A changed result has the demands of the encoder that gives the result. -/
theorem Checks.map (he : Checks e ds) (g : α → β) : Checks (do return g (← e)) ds := by
  have h := he.bind fun a => checks_pure (g a)
  rwa [List.append_nil] at h

/-- Where a run of an encoder gives a result, all demands that it checks are met. -/
theorem Checks.isMet_of_run (he : Checks e ds) {t t' : QuoteTable} (ht : t.IsSound) {a : α}
    (hrun : e.run t = .ok (a, t')) : ∀ d ∈ ds, d.IsMet := by
  rcases he.outcome with ⟨hmet, -⟩ | ⟨d, -, herror⟩
  · exact hmet
  · cases (he.isSteady.result_eq ht hrun).symm.trans herror

end Encoder

/-! ## Literals and settings -/

namespace Source

open Encoder

variable {v : Value} {o : Options} {ds : List Demand}

/-- The encoder `literal v` checks that the value is a literal. -/
theorem checks_literal (v : Value) : Checks (literal v) [.literal v] := by
  -- Among scalars, the numbers that are not finite, times and bytes have no text.
  cases v with
  | scalar s =>
    cases s with
    | float x =>
      unfold literal
      dsimp only
      split_ifs with hx
      · exact (checks_pure _).cons hx
      · exact checks_throw (d := .literal (.float x)) hx
    | str s => exact (checks_quote s).cons rfl
    | time t => exact checks_throw (d := .literal (.scalar (.time t))) Bool.false_ne_true
    | bytes b => exact checks_throw (d := .literal (.scalar (.bytes b))) Bool.false_ne_true
    | _ => exact (checks_pure _).cons rfl
  | _ => exact checks_throw (d := .literal _) Bool.false_ne_true

/-- The encoder `literals vs` checks that the values are literals, one after the other. -/
theorem checks_literals (vs : List Value) : Checks (literals vs) (vs.map .literal) := by
  induction vs with
  | nil => exact checks_pure _
  | cons v rest ih => exact (checks_literal v).bind fun text => ih.map (text :: ·)

/-- The encoder `default v` checks the function and then its arguments, or that the value is a
literal. -/
theorem checks_default (v : Value) : Checks (default v) (demandsOfDefault v) := by
  by_cases h : ∃ name arguments, v = .function name arguments
  · obtain ⟨name, arguments, rfl⟩ := h
    have hknown : defaultFunctions.contains name = true ↔ (Demand.function name).IsMet := by
      rw [List.contains_iff_mem]
      simp [defaultFunctions, Demand.IsMet]
    rw [default_function]
    split_ifs with hname
    · exact ((checks_literals arguments).map _).cons (hknown.mp hname)
    · exact checks_throw (d := .function name) fun h => hname (hknown.mpr h)
  · have hv : ∀ name arguments, v ≠ .function name arguments :=
      fun name arguments heq => h ⟨name, arguments, heq⟩
    -- Whatever is no function is demanded as a literal.
    have hdemands : demandsOfDefault v = [.literal v] := by
      unfold demandsOfDefault
      split
      · exact absurd rfl (hv _ _)
      · rfl
    rw [default_eq_literal hv, hdemands]
    exact checks_literal v

/-- The encoder `memberUnless` checks the demands of its value, none of which is unmet if the member
is absent. -/
theorem checks_memberUnless {absent : Bool} {name : String} {e : Encoder String}
    (ha : absent = true → ∀ d ∈ ds, d.IsMet) (he : absent = false → Checks e ds) :
    Checks (memberUnless absent name e) ds := by
  unfold memberUnless
  split_ifs with h
  · exact ⟨isSteady_pure _, .inl ⟨ha h, _, rfl⟩⟩
  · exact (he (Bool.eq_false_iff.mpr h)).map _

/-- The encoder `options o` checks the demands of the settings. -/
theorem checks_options (o : Options) : Checks (options o) o.demands := by
  have hnullable : Checks (memberUnless o.nullable.isNull "nullable" (literal o.nullable))
      [.literal o.nullable] := by
    refine checks_memberUnless (fun h d hd => ?_) fun _ => checks_literal _
    rw [List.mem_singleton.mp hd, Value.eq_null_of_isNull h]
    rfl
  have hdefault : Checks (memberUnless o.default.isNone "default"
      (default (o.default.getD .null))) (o.default.elim [] demandsOfDefault) := by
    cases o.default with
    | none => exact checks_memberUnless (fun _ d hd => absurd hd List.not_mem_nil) nofun
    | some d => exact checks_memberUnless nofun fun _ => checks_default d
  rw [options_eq]
  exact hnullable.bind fun _ => hdefault.map _

/-! ## Relations and primitive attributes -/

/-- The encoder `embedded v indent` checks that the value has a JSON text, which is so if it is made
of literals. -/
theorem checks_embedded (hv : v.IsProper) (indent : Option ℤ) :
    Checks (liftM (embedded v indent) : Encoder String) [.embedded v] := by
  have hiff : (∃ text, Json.write ⟨indent, false⟩ v = .ok text) ↔ v.IsRepresentable :=
    Json.exists_write_iff rfl hv
  unfold embedded
  split
  · rename_i text htext
    exact (checks_pure text).cons (hiff.mp ⟨text, htext⟩)
  · rename_i fault hfault
    refine checks_throw (d := .embedded v) fun h => ?_
    obtain ⟨text, htext⟩ := hiff.mpr h
    cases htext.symm.trans hfault

/-- An embedded member that may be absent checks that its value has a JSON text. -/
theorem checks_embeddedUnless (hv : v.IsProper) (name : String) (indent : Option ℤ) :
    Checks (memberUnless v.isNull name (liftM (embedded v indent))) [.embedded v] := by
  refine checks_memberUnless (fun h d hd => ?_) fun _ => checks_embedded hv indent
  rw [List.mem_singleton.mp hd, Value.eq_null_of_isNull h]
  exact .scalar rfl

/-- The encoder `relation` checks the id, or the condition, the limit and the order, one after the
other. -/
theorem checks_relation (cardinality : Value) (target : String) {q : Query}
    (hw : q.condition.IsProper) (ho : q.order.IsProper) :
    Checks (relation cardinality (.str target) q) (q.demands cardinality) := by
  -- The limit is demanded even where it is left out, and then it is null, which is a literal.
  have hlimit : Checks (memberUnless q.limit.isNull "limit" (literal q.limit))
      [.literal q.limit] := by
    refine checks_memberUnless (fun h d hd => ?_) fun _ => checks_literal _
    rw [List.mem_singleton.mp hd, Value.eq_null_of_isNull h]
    rfl
  unfold relation Query.demands
  refine (checks_quote target).bind fun _ => ?_
  cases relationId? cardinality q with
  | some id => exact (checks_literal id).map _
  | none =>
    refine Checks.map ?_ _
    rw [subquery_eq]
    exact (checks_embeddedUnless hw "where" none).bind fun _ =>
      hlimit.bind fun _ => (checks_embeddedUnless ho "order" none).map _

/-- The encoder `primitive` checks the kind and then the settings. -/
theorem checks_primitive (kind : String) (o : Options) :
    Checks (primitive (.str kind) o) (.kind (.str kind) :: o.demands) := by
  -- The kinds that are demanded are those that have a constructor.
  have hmet : (Demand.kind (.str kind)).IsMet ↔ (constructorOf? (.str kind)).isSome := by
    constructor
    · intro h
      simp only [Demand.IsMet, List.mem_cons, List.not_mem_nil, or_false, Value.scalar.injEq,
        Scalar.str.injEq] at h
      rcases h with rfl | rfl | rfl | rfl <;> rfl
    · intro h
      obtain ⟨constructor, hsome⟩ := Option.isSome_iff_exists.mp h
      have hmem := Entries.mem_of_get? hsome
      simp only [primitiveConstructors, List.mem_cons, Prod.mk.injEq, List.not_mem_nil,
        or_false] at hmem
      rcases hmem with ⟨rfl, -⟩ | ⟨rfl, -⟩ | ⟨rfl, -⟩ | ⟨rfl, -⟩ <;> simp [Demand.IsMet]
  cases hkind : constructorOf? (.str kind) with
  | some constructor =>
    rw [primitive_of_some hkind]
    exact ((checks_options o).map _).cons (hmet.mpr (by rw [hkind]; rfl))
  | none =>
    have hnone : Entries.get? kind primitiveConstructors = none := hkind
    have hthrow : primitive (.str kind) o = throw (.refused (.kind kind)) := by
      unfold primitive
      rw [if_neg (by exact Bool.false_ne_true)]
      dsimp only
      rw [hnone]
      rfl
    rw [hthrow]
    exact checks_throw (d := .kind (.str kind)) fun h => by
      rw [hmet, hkind] at h
      cases h

end Source

/-! ## Attributes, collections and schemas -/

open Encoder

mutual

/-- An attribute checks its demands when it is written. The induction is on the attribute. -/
theorem Attribute.checks_toSource (a : Attribute) (h : a.IsRegular Value.IsProper) (hr : a.IsRead)
    (optional : Bool) : Checks (a.toSource optional) a.demands := by
  cases a with
  | primitive kind o =>
    cases hr with
    | primitive => exact (Source.checks_primitive _ o).map _
  | set items o =>
    cases hr with
    | set =>
      exact ((Source.checks_primitive _ _).map _).bind fun _ => (Source.checks_options o).map _
  | record properties keys =>
    cases h with
    | record hn h =>
      cases hr with
      | record hn' hr => exact (checks_membersToSource properties h hr keys).map _
  | relation cardinality target query =>
    cases h with
    | relation hc hw ho => exact Source.checks_relation cardinality _ hw ho
  | foreign v => cases hr

/-- The members of a tree check the demands of their attributes one after the other. -/
theorem checks_membersToSource (properties : List (String × Attribute))
    (h : ∀ p ∈ properties, p.2.IsRegular Value.IsProper) (hr : ∀ p ∈ properties, p.2.IsRead)
    (keys : List String) :
    Checks (membersToSource keys properties) (demandsOfProperties properties) := by
  cases properties with
  | nil => exact checks_pure _
  | cons p rest =>
    have hfirst := Attribute.checks_toSource p.2 (h p List.mem_cons_self)
      (hr p List.mem_cons_self) (keys.contains p.1)
    have hrest := checks_membersToSource rest (fun q hq => h q (List.mem_cons_of_mem p hq))
      (fun q hq => hr q (List.mem_cons_of_mem p hq)) keys
    exact hfirst.bind fun _ => (checks_quote p.1).bind fun _ => hrest.map _

end

/-- A collection checks the demands of its attributes and then those of its rules. -/
theorem Collection.checks_toSource {c : Collection} (h : c.IsRegular Value.IsProper)
    (hr : AreRead c.schema.properties) : Checks c.toSource c.demands := by
  rw [Collection.toSource_eq]
  exact (checks_membersToSource _ h.properties hr.isRead _).bind fun _ =>
    (Source.checks_embeddedUnless h.rules "rules" (some 2)).map _

/-- The function `collectionsToSource` checks the demands of collections one after the other. -/
theorem checks_collectionsToSource {collections : List (String × Collection)}
    (h : ∀ p ∈ collections, p.2.IsRegular Value.IsProper)
    (hr : ∀ p ∈ collections, AreRead p.2.schema.properties) :
    Checks (collectionsToSource collections) (collections.flatMap fun p => p.2.demands) := by
  induction collections with
  | nil => exact checks_pure _
  | cons p rest ih =>
    have hrest := ih (fun q hq => h q (List.mem_cons_of_mem p hq))
      fun q hq => hr q (List.mem_cons_of_mem p hq)
    rw [List.flatMap_cons]
    exact (checks_quote p.1).bind fun _ => (Collection.checks_toSource (h p List.mem_cons_self)
      (hr p List.mem_cons_self)).bind fun _ => hrest.map _

/-- The encoder `encodeModule` checks the demands of what is read of a proper document. -/
theorem checks_encodeModule {document : Value} (hdocument : document.IsProper)
    {schema : Option Schema} (hschema : Schema.ofValue document = .ok schema) (o : ModuleOptions) :
    Checks (encodeModule o schema) (demandsOf schema) := by
  cases schema with
  | none => exact ((checks_pure _).map _).map _
  | some s =>
    have hregular := Schema.isRegular_ofValue hdocument hschema
    have hread := Schema.isRead_ofValue hschema
    exact ((checks_collectionsToSource hregular.collections hread.areRead).map _).map _

/-- Whatever is read of a proper document is written as a module if all its demands are met. If not,
the first demand in the order of writing that is not met is refused with its own error, and nothing
else stops the writer. -/
theorem run_encodeModule {document : Value} (hdocument : document.IsProper)
    {schema : Option Schema} (hschema : Schema.ofValue document = .ok schema) (o : ModuleOptions)
    {t : QuoteTable} (ht : t.Arises) :
    ((∃ text t', (encodeModule o schema).run t = .ok (text, t')) ↔
        ∀ d ∈ demandsOf schema, d.IsMet) ∧
      ∀ failure, (encodeModule o schema).run t = .error failure ↔
        ∃ d, IsFirstUnmet (demandsOf schema) d ∧ failure = .refused d.error := by
  have hchecks := checks_encodeModule hdocument hschema o
  obtain ⟨t', -, hrun⟩ := hchecks.isSteady t ht.isSound
  rw [hrun]
  -- Either all demands are met, or there is a first one that is not, and only one.
  rcases hchecks.outcome with ⟨hmet, text, htext⟩ | ⟨d, hd, herror⟩
  · rw [htext]
    refine ⟨⟨fun _ => hmet, fun _ => ⟨text, t', rfl⟩⟩, fun failure => ⟨nofun, ?_⟩⟩
    rintro ⟨d, hd, -⟩
    obtain ⟨e, he, hunmet⟩ := hd.exists_mem
    exact absurd (hmet e he) hunmet
  · rw [herror]
    refine ⟨⟨nofun, fun hmet => ?_⟩, fun failure => ⟨?_, ?_⟩⟩
    · obtain ⟨e, he, hunmet⟩ := hd.exists_mem
      exact absurd (hmet e he) hunmet
    · rintro ⟨⟩
      exact ⟨d, hd, rfl⟩
    · rintro ⟨d', hd', rfl⟩
      rw [hd.unique hd']
      rfl

/-- A document with two faults: a default that calls an unknown function, and behind it an unknown
kind. -/
def planDocument : Value :=
  .record [("collections", .record [("plans", .record [("schema", .record [("properties", .record [
    ("due", .record [("type", .str "date"),
      ("options", .record [("default", .record [("func", .str "sum")])])]),
    ("note", .record [("type", .str "text")])])])])])]

/-- The schema that is read of `planDocument`, with a function and a kind that no module can
have. -/
def planSchema : Schema where
  version := 0
  collections := [("plans", {
    schema := {
      properties := [("due", .primitive (.str "date") { default := some (.function "sum" []) }),
        ("note", .primitive (.str "text") {})]
      optional := [] } })]

/-- Reading `planDocument` gives `planSchema`. -/
theorem ofValue_planDocument : Schema.ofValue planDocument = .ok (some planSchema) := by
  cbv

/-- An instance of `run_encodeModule`: the schema `planSchema` has two faults, and the first one is
refused. -/
theorem run_encodeModule_planSchema : Schema.ofValue planDocument = .ok (some planSchema) ∧
    (encodeModule {} (some planSchema)).run {} = .error (.refused (.function "sum")) := by
  have hdue : (Value.record [("type", .str "date"),
      ("options", .record [("default", .record [("func", .str "sum")])])]).IsTree := by
    refine .record (List.forall_mem_cons.mpr ⟨.scalar, List.forall_mem_singleton.mpr ?_⟩)
    refine .record (List.forall_mem_singleton.mpr ?_)
    exact .record (List.forall_mem_singleton.mpr .scalar)
  have hnote : (Value.record [("type", .str "text")]).IsTree :=
    .record (List.forall_mem_singleton.mpr .scalar)
  have hdocument : planDocument.IsTree := by
    refine .record (List.forall_mem_singleton.mpr ?_)
    refine .record (List.forall_mem_singleton.mpr ?_)
    refine .record (List.forall_mem_singleton.mpr ?_)
    refine .record (List.forall_mem_singleton.mpr ?_)
    exact .record (List.forall_mem_cons.mpr ⟨hdue, List.forall_mem_singleton.mpr hnote⟩)
  -- Two demands are met before it, and one that is unmet as well comes later.
  have hfirst : IsFirstUnmet (demandsOf (some planSchema)) (.function "sum") := by
    refine ⟨[.kind (.str "date"), .literal .null], [.kind (.str "text"), .literal .null,
      .embedded .null], rfl, ?_, by simp [Demand.IsMet]⟩
    exact List.forall_mem_cons.mpr ⟨by simp [Demand.IsMet], List.forall_mem_singleton.mpr rfl⟩
  exact ⟨ofValue_planDocument, ((run_encodeModule hdocument.isProper ofValue_planDocument {}
    .empty).2 _).mpr ⟨_, hfirst, rfl⟩⟩

end SchemaForge
