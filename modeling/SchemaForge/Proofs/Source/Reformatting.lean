import SchemaForge.Proofs.Source.Demand
import SchemaForge.Proofs.Source.Rewriting

/-!
# Modules reformatted

A module may be laid out by a formatter before it is saved (section 6.3 of the specification), and
it is loaded all the same. A text is a reformatting of another one if its tokens are those of the
other one after any number of the steps that a formatter may take; blanks and comments are no
tokens. Each step leaves the tokens those of a module of the same schema, so the loader makes the
same schema of all reformattings of the module of a document, whatever names the module uses
(`load_isReformatted`).
-/

namespace SchemaForge

/-! ## Schemas without calls -/

namespace Value

variable {v : Value}

/-- A literal is a scalar, so that nothing is called in it and it `IsCallFree`. -/
theorem isCallFree_of_isLiteral (h : v.isLiteral = true) : v.IsCallFree := by
  cases v with
  | scalar => exact .scalar
  | _ => cases h

/-- Nothing is called in a mapping under texts of which nothing is called in the values. -/
theorem isCallFree_record {fields : List (String × Value)} (h : ∀ f ∈ fields, f.2.IsCallFree) :
    (Value.record fields).IsCallFree := by
  refine .mapping fun e he => ?_
  obtain ⟨f, hf, rfl⟩ := List.mem_map.mp he
  exact h f hf

end Value

namespace Json

mutual

/-- Nothing is called in the `image` of a value, which is read of JSON. -/
theorem isCallFree_image (v : Value) : (image v).IsCallFree := by
  cases v with
  | list items => exact .list (isCallFree_images items)
  | tuple items => exact .list (isCallFree_images items)
  | mapping entries =>
    refine Value.isCallFree_record fun f hf => ?_
    have hmem := (Entries.mem_putAll hf).resolve_left List.not_mem_nil
    exact isCallFree_imageFields entries f hmem
  | _ => exact .scalar

/-- Nothing is called in the items of an array that is read (`images`). -/
theorem isCallFree_images (items : List Value) : ∀ i ∈ images items, i.IsCallFree := by
  cases items with
  | nil => exact fun _ hi => absurd hi List.not_mem_nil
  | cons v rest =>
    exact List.forall_mem_cons.mpr ⟨isCallFree_image v, isCallFree_images rest⟩

/-- Nothing is called in the members of an object that is read (`imageFields`). -/
theorem isCallFree_imageFields (entries : List (Scalar × Value)) :
    ∀ f ∈ imageFields entries, f.2.IsCallFree := by
  cases entries with
  | nil => exact fun _ hf => absurd hf List.not_mem_nil
  | cons e rest =>
    exact List.forall_mem_cons.mpr ⟨isCallFree_image e.2, isCallFree_imageFields rest⟩

end

end Json

section CallFree

variable {o : Options} {q : Query} {a : Attribute} {s : Schema}

/-- Nothing is called in settings whose demands are met: a default is a function of literals or a
literal. -/
theorem Options.isCallFree_of_isMet (h : ∀ d ∈ o.demands, d.IsMet) : o.IsCallFree := by
  obtain ⟨hnullable, hdefault⟩ := List.forall_mem_cons.mp h
  refine ⟨Value.isCallFree_of_isLiteral hnullable, fun d hd => ?_⟩
  have hd' : o.default = some d := hd
  rw [hd'] at hdefault
  have hdemands : ∀ e ∈ demandsOfDefault d, e.IsMet := hdefault
  -- A function is demanded by its arguments, and any other default as a literal.
  by_cases hcall : ∃ name arguments, d = .function name arguments
  · obtain ⟨name, arguments, rfl⟩ := hcall
    refine .function fun v hv => Value.isCallFree_of_isLiteral ?_
    exact hdemands (.literal v) (List.mem_cons_of_mem _ (List.mem_map_of_mem hv))
  · have hliteral : demandsOfDefault d = [.literal d] := by
      unfold demandsOfDefault
      split
      · exact absurd ⟨_, _, rfl⟩ hcall
      · rfl
    rw [hliteral] at hdemands
    exact Value.isCallFree_of_isLiteral (hdemands _ List.mem_cons_self)

/-- Nothing is called in what a module keeps of a query whose demands are met. -/
theorem Query.isCallFree_reloaded {cardinality : Value}
    (h : ∀ d ∈ q.demands cardinality, d.IsMet) : (q.reloaded cardinality).IsCallFree := by
  unfold Query.demands at h
  unfold Query.reloaded
  -- With an id the condition is made of it; otherwise the parts are images of JSON texts, which
  -- hold no calls.
  cases hid : Source.relationId? cardinality q with
  | some id =>
    rw [hid] at h
    have hliteral : id.IsCallFree := Value.isCallFree_of_isLiteral (h _ List.mem_cons_self)
    have hclause : (Value.list [.str "id", .str "=", id]).IsCallFree :=
      .list (List.forall_mem_cons.mpr ⟨.scalar, List.forall_mem_cons.mpr ⟨.scalar,
        List.forall_mem_singleton.mpr hliteral⟩⟩)
    exact ⟨.list (List.forall_mem_singleton.mpr hclause), .scalar, .scalar⟩
  | none =>
    rw [hid] at h
    have hlimit : q.limit.isLiteral = true := h (.literal q.limit) (by simp)
    exact ⟨Json.isCallFree_image _, Value.isCallFree_of_isLiteral hlimit, Json.isCallFree_image _⟩

/-- If the demands of several attributes are met then those of each are. -/
theorem isMet_of_mem_properties {properties : List (String × Attribute)}
    (h : ∀ d ∈ demandsOfProperties properties, d.IsMet) :
    ∀ p ∈ properties, ∀ d ∈ p.2.demands, d.IsMet := by
  induction properties with
  | nil => exact fun _ hp => absurd hp List.not_mem_nil
  | cons p rest ih =>
    rw [demandsOfProperties] at h
    obtain ⟨hfirst, hrest⟩ := List.forall_mem_append.mp h
    exact List.forall_mem_cons.mpr ⟨hfirst, ih hrest⟩

/-- Nothing is called in what a module keeps of an attribute whose demands are met. -/
theorem Attribute.IsRead.isCallFree_reloaded (h : a.IsRead) (hd : ∀ d ∈ a.demands, d.IsMet) :
    a.reloaded.IsCallFree := by
  -- A demand that is met rules a call out, and each attribute has the demands of its parts.
  induction h with
  | primitive => exact .primitive (Options.isCallFree_of_isMet (List.forall_mem_cons.mp hd).2)
  | set =>
    obtain ⟨hitems, ho⟩ := List.forall_mem_append.mp hd
    exact .set (.primitive (Options.isCallFree_of_isMet (List.forall_mem_cons.mp hitems).2))
      (Options.isCallFree_of_isMet ho)
  | @record properties optional _ _ ih =>
    refine .record fun p hp => ?_
    rw [reloadedProperties_eq_map] at hp
    obtain ⟨q, hq, rfl⟩ := List.mem_map.mp hp
    exact ih q hq (isMet_of_mem_properties hd q hq)
  | relation => exact .relation .scalar (Query.isCallFree_reloaded hd)

/-- Nothing is called in what a module keeps of a schema whose demands are met. -/
theorem Schema.IsRead.isCallFree_reloaded (h : s.IsRead) (hd : ∀ d ∈ s.demands, d.IsMet) :
    s.reloaded.IsCallFree := by
  intro p hp
  obtain ⟨p, hmem, rfl⟩ := List.mem_map.mp hp
  have hc : ∀ d ∈ p.2.demands, d.IsMet := fun d hd' =>
    hd d (List.mem_flatMap.mpr ⟨p, hmem, hd'⟩)
  obtain ⟨hproperties, -⟩ := List.forall_mem_append.mp hc
  refine ⟨fun q hq => ?_, Json.isCallFree_image _⟩
  have hq' : q ∈ reloadedProperties p.2.schema.properties := hq
  rw [reloadedProperties_eq_map] at hq'
  obtain ⟨r, hr, rfl⟩ := List.mem_map.mp hq'
  exact ((h.areRead p hmem).isRead r hr).isCallFree_reloaded
    (isMet_of_mem_properties hproperties r hr)

end CallFree

/-! ## Modules -/

namespace Source

/-- Tokens of these shapes are a module of the schema: an import under some alias, and the export of
a value that describes the schema under this alias. -/
inductive IsModule (s : Schema) : List Shape → Prop
  /-- An import, and the export of a value that describes the schema under the alias. -/
  | intro {builder : String} {comma : Bool} {path name : String} {ss : List Shape} {v : Value}
      (hconst : builder ∉ Entries.keys constants) (hclose : builder ∉ closers)
      (hd : Derives ss (.value v)) (hload : loadSchema builder v = .ok s) :
      IsModule s (importShapes builder comma path
        ++ (exportShapes name ++ (ss ++ [(.punctuation, ";")])))

/-- The tokens of a text without their places, if all of it consists of tokens. -/
def shapes? (text : String) : Option (List Shape) :=
  (tokens text.toList).toOption.map (List.map Token.shape)

/-- A text is a reformatting of another one: its tokens are those of the other one after any number
of steps (`Rewrites`). Blanks and comments are free. -/
def IsReformatted (text text' : String) : Prop :=
  ∃ ss ts, shapes? text = some ss ∧ shapes? text' = some ts ∧
    Relation.ReflTransGen Rewrites ss ts

/-- The tokens of an import behind the alias, and those of the export. -/
def tailShapes (comma : Bool) (path name : String) (ss : List Shape) : List Shape :=
  (if comma then [(.punctuation, ",")] else []) ++ (.punctuation, "\x7d") :: (.name, "from") ::
    (.string, path) :: (.punctuation, ";") :: (.name, "export") :: (.name, "const") ::
      (.name, name) :: (.punctuation, "=") :: (ss ++ [(.punctuation, ";")])

variable {s : Schema} {builder old new path name : String} {comma : Bool} {ss ts zs : List Shape}
  {v : Value} {p : Shape}

/-- The tokens of a module are those up to the alias and those behind it. -/
theorem importShapes_append : importShapes builder comma path
    ++ (exportShapes name ++ (ss ++ [(.punctuation, ";")]))
      = importHead builder ++ tailShapes comma path name ss := by
  cases comma <;> rfl

/-- A pass over the tokens up to the alias leaves them as they are, since none of them can be
rewritten. -/
theorem Rewritten.importHead (hs : ss.head? ≠ some point)
    (h : Rewritten old old p (Source.importHead old ++ ss) zs) :
    ∃ ts, zs = Source.importHead old ++ ts ∧ Rewritten old old (.name, old) ss ts := by
  obtain ⟨_, rfl, h₁⟩ := h.name (.inr (by simp [point]))
  obtain ⟨_, rfl, h₂⟩ := h₁.mark (by decide) (by decide)
  obtain ⟨_, rfl, h₃⟩ := h₂.name (.inr (by simp [point]))
  obtain ⟨_, rfl, h₄⟩ := h₃.name (.inr (by simp [point]))
  obtain ⟨ts, rfl, h₅⟩ := h₄.name (.inr hs)
  exact ⟨ts, rfl, h₅⟩

/-- A pass over the path of an import leaves it a text, perhaps with other quotes. -/
theorem Rewritten.importPath {x : String} (hs : ss.head? ≠ some colon)
    (h : Rewritten old new p ((.string, x) :: ss) zs) :
    ∃ y ts, zs = (.string, y) :: ts ∧ Rewritten old new (.string, x) ss ts := by
  cases h with
  | keep _ h => exact ⟨x, _, rfl, h⟩
  | rename hs _ => cases (eq_of_isHead hs).1
  | requote _ _ h => exact ⟨_, _, rfl, h⟩
  | requotePath h => exact ⟨_, _, rfl, h⟩
  | unquote _ _ _ => exact absurd rfl hs

/-- A pass may put the comma behind the alias in the braces of the import, or leave it out. -/
theorem Rewritten.aliasEnd (h : Rewritten old new p
    ((if comma then [(.punctuation, ",")] else []) ++ (.punctuation, "\x7d") :: ss) zs) :
    ∃ (comma' : Bool) (ts : List Shape),
      zs = (if comma' then [(.punctuation, ",")] else []) ++ (.punctuation, "\x7d") :: ts ∧
        Rewritten old new (.punctuation, "\x7d") ss ts := by
  have hbrace : "\x7d" ∈ closers := by decide
  cases comma with
  | false =>
    obtain ⟨us, hus, rfl | ⟨-, rfl⟩⟩ := Rewritten.closing hbrace h
    · exact ⟨false, us, rfl, hus⟩
    · exact ⟨true, us, rfl, hus⟩
  | true =>
    rcases Rewritten.comma h with ⟨us, rfl, hus⟩ | ⟨c, hc, _, us, heq, rfl, hus⟩
    · obtain ⟨ts, hts, rfl | ⟨hne, -⟩⟩ := Rewritten.closing hbrace hus
      · exact ⟨true, ts, rfl, hts⟩
      · exact absurd (by decide) hne
    · cases heq
      exact ⟨false, us, rfl, hus⟩

/-- A pass over the tokens behind the alias leaves those of the import as they are, but for the
comma and the path, and makes of the exported value the renamed one. -/
theorem Rewritten.tailShapes (hconst : new ∉ Entries.keys constants) (hclose : new ∉ closers)
    (hd : Derives ss (.value v))
    (h : Rewritten old new p (Source.tailShapes comma path name ss) zs) :
    ∃ comma' path' ts, zs = Source.tailShapes comma' path' name ts ∧
      Derives ts (.value (v.renamed old new)) := by
  -- The rewriting is followed through the tokens from left to right. It may act on the comma, on
  -- the path and within the value, and it has to leave every other token.
  obtain ⟨comma', _, rfl, h₁⟩ := Rewritten.aliasEnd h
  obtain ⟨_, rfl, h₂⟩ := h₁.name (.inr (by simp [point]))
  obtain ⟨path', _, rfl, h₃⟩ := h₂.importPath (by simp [colon])
  obtain ⟨_, rfl, h₄⟩ := h₃.mark (by decide) (by decide)
  obtain ⟨_, rfl, h₅⟩ := h₄.name (.inr (by simp [point]))
  obtain ⟨_, rfl, h₆⟩ := h₅.name (.inr (by simp [point]))
  obtain ⟨_, rfl, h₇⟩ := h₆.name (.inr (by simp [point]))
  obtain ⟨_, rfl, h₈⟩ := h₇.mark (by decide) (by decide)
  obtain ⟨ts, _, _, rfl, hts, h₉⟩ := survives_of_derives hconst hclose hd rfl (by decide)
    (by simp [colon]) (by simp [point]) h₈
  obtain ⟨_, rfl, h₁₀⟩ := h₉.mark (by decide) (by decide)
  cases h₁₀
  exact ⟨comma', path', ts, rfl, hts⟩

/-- Behind the alias in the import stands no point, so that it is not taken for one in front of a
call. -/
theorem head?_tailShapes : (tailShapes comma path name ss).head? ≠ some point := by
  cases comma <;> simp [tailShapes, point]

/-- The alias and what stands behind it are seen from the tokens, so that a new alias is the same
everywhere. -/
theorem importHead_inj (h : importHead old ++ ss = importHead new ++ ts) : old = new ∧ ss = ts := by
  cases h
  exact ⟨rfl, rfl⟩

/-- A step of `Rewrites` leaves the tokens those of a module of the same schema. -/
theorem IsModule.rewrites (hs : s.IsCallFree) (h : IsModule s ss) (hr : Rewrites ss ts) :
    IsModule s ts := by
  obtain @⟨builder, comma, path, name, ss, v, hconst, hclose, hd, hload⟩ := h
  rw [importShapes_append] at hr
  -- Either the alias stays and the value is rewritten, or the alias is renamed in all of the
  -- module.
  rcases hr.rewritten with hpass | ⟨old, new, behind, hname, hnew, heq, rfl⟩
  · obtain ⟨behind, rfl, hbehind⟩ := (hpass builder point).importHead head?_tailShapes
    obtain ⟨comma', path', ts, rfl, hts⟩ := hbehind.tailShapes hconst hclose hd
    rw [← importShapes_append]
    exact .intro hconst hclose hts (loadSchema_renamed hload hs)
  · obtain ⟨rfl, rfl⟩ := importHead_inj heq
    have hnew' := not_mem_closers_of_isName hname
    have hpass := rewritten_renameHeads builder new (.name, builder) (tailShapes comma path name ss)
    obtain ⟨comma', path', ts, hzs, hts⟩ := hpass.tailShapes hnew hnew' hd
    rw [hzs, ← importShapes_append]
    exact .intro hnew hnew' hts (loadSchema_renamed hload hs)

/-- Any number of steps leaves the tokens those of a module of the same schema, by induction on the
steps. -/
theorem IsModule.reformatted (hs : s.IsCallFree) (h : IsModule s ss)
    (hr : Relation.ReflTransGen Rewrites ss ts) : IsModule s ts := by
  induction hr with
  | refl => exact h
  | tail _ hstep ih => exact ih.rewrites hs hstep

/-- The loader `load` makes the schema of a text whose tokens are a module of it. -/
theorem load_of_isModule {text : String} (hss : shapes? text = some ss) (h : IsModule s ss) :
    load text.toList = .ok s := by
  unfold shapes? at hss
  cases htokens : tokens text.toList with
  | error e =>
    rw [htokens] at hss
    cases hss
  | ok found =>
    rw [htokens] at hss
    cases h with
    | intro _ _ hd hload => rw [load_of_shapes htokens (Option.some.inj hss) hd, hload]

end Source

/-! ## The module of a document -/

/-- The text of a schema that is read of a proper document is a module of what is kept of the
schema, whatever names the module uses. -/
theorem exists_isModule {document : Value} (hdocument : document.IsProper) {schema : Option Schema}
    (hschema : Schema.ofValue document = .ok schema) :
    ∃ s : Schema, ∀ (o : ModuleOptions) (t t' : QuoteTable) (text : String), o.IsSound →
      t.Arises → (encodeModule o schema).run t = .ok (text, t') → s.IsCallFree ∧
        ∃ ss, Source.shapes? text = some ss ∧ Source.IsModule s ss := by
  -- Without a schema the module is that of a schema without collections.
  refine ⟨(schema.getD ⟨0, []⟩).reloaded, fun o t t' text ho ht h => ?_⟩
  obtain ⟨hregular, hfree, hrun⟩ : (schema.getD ⟨0, []⟩).IsRegular Value.IsProper ∧
      (schema.getD ⟨0, []⟩).reloaded.IsCallFree ∧
        (encodeModule o (some (schema.getD ⟨0, []⟩))).run t = .ok (text, t') := by
    cases schema with
    | none =>
      exact ⟨⟨List.nodup_nil, fun _ hp => absurd hp List.not_mem_nil⟩,
        fun _ hp => absurd hp List.not_mem_nil, h⟩
    | some s =>
      have hmet := (checks_encodeModule hdocument hschema o).isMet_of_run ht.isSound h
      exact ⟨Schema.isRegular_ofValue hdocument hschema,
        (Schema.isRead_ofValue hschema).isCallFree_reloaded hmet, h⟩
  have hresult := hregular.isSteady_encodeModule.result_eq ht.isSound hrun
  obtain ⟨body, v, rfl, ⟨ss, hspells, hd⟩, hload⟩ := hregular.exists_body hresult
  obtain ⟨ts, htokens, hts⟩ := Source.tokens_moduleText ho hspells
  have hshapes : Source.shapes? (moduleText o body) = some (ts.map Token.shape) := by
    rw [Source.shapes?, htokens]
    rfl
  exact ⟨hfree, _, hts ▸ hshapes, .intro (by decide) (by decide) hd hload⟩

/-- Of all reformattings of the module of a document `load` makes the same schema as of the module
itself, and this schema does not depend on the names that the module uses. -/
theorem load_isReformatted {document : Value} (hdocument : document.IsProper)
    {schema : Option Schema} (hschema : Schema.ofValue document = .ok schema) :
    ∃ s : Schema, ∀ (o : ModuleOptions) (t t' : QuoteTable) (text : String), o.IsSound →
      t.Arises → (encodeModule o schema).run t = .ok (text, t') →
        Source.load text.toList = .ok s ∧
          ∀ text', Source.IsReformatted text text' → Source.load text'.toList = .ok s := by
  obtain ⟨s, hmodule⟩ := exists_isModule hdocument hschema
  refine ⟨s, fun o t t' text ho ht h => ?_⟩
  obtain ⟨hfree, ss, hss, his⟩ := hmodule o t t' text ho ht h
  refine ⟨Source.load_of_isModule hss his, ?_⟩
  rintro text' ⟨us, ts, hus, hts, hr⟩
  cases hss.symm.trans hus
  exact Source.load_of_isModule hts (his.reformatted hfree hr)

/-- A document of one collection, with a date that is set when it is written. -/
def eventDocument : Value :=
  .record [("collections", .record [("it's", .record [("schema", .record [("properties", .record [
    ("at", .record [("type", .str "date"),
      ("options", .record [("default", .record [("func", .str "now")])])])])])])])]

/-- The schema that is read of `eventDocument`: its collection has a quote in its name, and its
attribute has the current time as its default. -/
def eventSchema : Schema where
  version := 0
  collections := [("it's", {
    schema := {
      properties := [("at", .primitive (.str "date") { default := some (.function "now" []) })]
      optional := [] } })]

/-- The schema `eventSchema` is read of its document. -/
theorem ofValue_eventDocument : Schema.ofValue eventDocument = .ok (some eventSchema) := by
  cbv

/-- A module of events with another alias, other quotes and a comma less. -/
def eventText : String :=
  "import \x7b Schema as Kit \x7d from '@triplit/db'; export const schema = \x7b 'it\\'s': \x7b "
    ++ "schema: Kit.Schema(\x7b at: Kit.Date(\x7bdefault: Kit.Default.now()\x7d), \x7d), \x7d \x7d;"

section Event

open Source

/-- The tokens of a module of events, by the alias, the name of the collection, the key of its
attribute and the comma behind the collection. -/
def eventShapes (builder : String) (name key : Shape) (last : List Shape) : List Shape :=
  importHead builder ++ [(.punctuation, "\x7d"), (.name, "from"), (.string, "'@triplit/db'"),
    (.punctuation, ";"), (.name, "export"), (.name, "const"), (.name, "schema"),
    (.punctuation, "="), (.punctuation, "\x7b"), name, colon, (.punctuation, "\x7b"),
    (.name, "schema"), colon, (.name, builder), point, (.name, "Schema"), (.punctuation, "("),
    (.punctuation, "\x7b"), key, colon, (.name, builder), point, (.name, "Date"),
    (.punctuation, "("), (.punctuation, "\x7b"), (.name, "default"), colon, (.name, builder),
    point, (.name, "Default"), point, (.name, "now"), (.punctuation, "("), (.punctuation, ")"),
    (.punctuation, "\x7d"), (.punctuation, ")"), comma, (.punctuation, "\x7d"),
    (.punctuation, ")"), comma, (.punctuation, "\x7d")] ++ last
      ++ [(.punctuation, "\x7d"), (.punctuation, ";")]

/-- The tokens of events are rewritten in four steps: alias, quotes, bare keys and commas. -/
theorem rewrites_eventShapes : Relation.ReflTransGen Rewrites
    (eventShapes "S" (.string, "\"it's\"") (.string, "\"at\"") [comma])
    (eventShapes "Kit" (.string, "'it\\'s'") (.name, "at") []) := by
  have hi : Writes '\'' ['i'] 'i' := .plain (by decide) (by decide) (by decide)
  have ht : Writes '\'' ['t'] 't' := .plain (by decide) (by decide) (by decide)
  have hs : Writes '\'' ['s'] 's' := .plain (by decide) (by decide) (by decide)
  have hwrites : WritesAll '\'' ['i', 't', '\\', '\'', 's'] "it's".toList :=
    .cons hi (.cons ht (.cons .quote (.cons hs .nil)))
  have hsingle : IsLiteral "it's" "'it\\'s'" := .intro (.inr rfl) hwrites
  -- One rewriting after the other, each at its place: the shapes before and behind it stay.
  have hrequote : Rewrites (eventShapes "S" (.string, "\"it's\"") (.string, "\"at\"") [comma])
      (eventShapes "S" (.string, "'it\\'s'") (.string, "\"at\"") [comma]) :=
    @Rewrites.requote ((eventShapes "S" point point []).take 14)
      ((eventShapes "S" point (.string, "\"at\"") [comma]).drop 15) _ _ _
      (isLiteral_quote "it's") hsingle
  have hunquote : Rewrites (eventShapes "S" (.string, "'it\\'s'") (.string, "\"at\"") [comma])
      (eventShapes "S" (.string, "'it\\'s'") (.name, "at") [comma]) :=
    @Rewrites.unquote ((eventShapes "S" (.string, "'it\\'s'") point []).take 24)
      ((eventShapes "S" point point [comma]).drop 26) _ _ (isLiteral_quote "at") (by decide)
  have hdrop : Rewrites (eventShapes "S" (.string, "'it\\'s'") (.name, "at") [comma])
      (eventShapes "S" (.string, "'it\\'s'") (.name, "at") []) :=
    @Rewrites.dropComma ((eventShapes "S" (.string, "'it\\'s'") (.name, "at") []).take 46)
      [(.punctuation, ";")] _ _ (by decide) (by decide)
  have hrename : Rewrites (eventShapes "S" (.string, "'it\\'s'") (.name, "at") [])
      (eventShapes "Kit" (.string, "'it\\'s'") (.name, "at") []) :=
    @Rewrites.rename "S" "Kit" ((eventShapes "S" (.string, "'it\\'s'") (.name, "at") []).drop 5)
      (by decide) (by decide)
  exact (((Relation.ReflTransGen.single hrequote).tail hunquote).tail hdrop).tail hrename

/-- The tokens of a text in two pieces are those of the characters of both. -/
theorem shapes?_append (cs ds : List Char) : shapes? (String.ofList cs ++ String.ofList ds)
    = (tokens (cs ++ ds)).toOption.map (List.map Token.shape) := by
  rw [shapes?, String.toList_append, String.toList_ofList, String.toList_ofList]

/-- The module of events and the other one are loaded as the same schema. -/
theorem load_isReformatted_eventDocument : ∃ text t s,
    (encodeModule {} (some eventSchema)).run {} = .ok (text, t) ∧ IsReformatted text eventText ∧
      load text.toList = .ok s ∧ load eventText.toList = .ok s := by
  have hdefault : (Value.record [("default", .record [("func", .str "now")])]).IsTree :=
    .record (List.forall_mem_singleton.mpr (.record (List.forall_mem_singleton.mpr .scalar)))
  have hat : (Value.record [("type", .str "date"),
      ("options", .record [("default", .record [("func", .str "now")])])]).IsTree :=
    .record (List.forall_mem_cons.mpr ⟨.scalar, List.forall_mem_singleton.mpr hdefault⟩)
  have hdocument : eventDocument.IsTree := by
    refine .record (List.forall_mem_singleton.mpr ?_)
    refine .record (List.forall_mem_singleton.mpr ?_)
    refine .record (List.forall_mem_singleton.mpr ?_)
    exact .record (List.forall_mem_singleton.mpr (.record (List.forall_mem_singleton.mpr hat)))
  obtain ⟨s, hs⟩ := load_isReformatted hdocument.isProper ofValue_eventDocument
  -- The texts are compared by their tokens.
  obtain ⟨body, t, hrun, htext⟩ : ∃ body t,
      (encodeModule {} (some eventSchema)).run {} = .ok (moduleText {} body, t) ∧
        shapes? (moduleText {} body)
          = some (eventShapes "S" (.string, "\"it's\"") (.string, "\"at\"") [comma]) := by
    refine ⟨_, _, rfl, ?_⟩
    rw [shapes?, moduleText_toList]
    decide +kernel
  have hother : shapes? eventText
      = some (eventShapes "Kit" (.string, "'it\\'s'") (.name, "at") []) :=
    (shapes?_append _ _).trans (by decide +kernel)
  have hreformatted : IsReformatted (moduleText {} body) eventText :=
    ⟨_, _, htext, hother, rewrites_eventShapes⟩
  obtain ⟨hload, hall⟩ := hs {} {} t _ isSound_default .empty hrun
  exact ⟨_, t, s, hrun, hreformatted, hload, hall _ hreformatted⟩

end Event

end SchemaForge
