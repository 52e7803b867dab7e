import SchemaForge.Proofs.Migration.Order

/-!
# Steps that succeed

When a step has a result, and which state it leaves: of the steps that make a collection
(`runsTo_createCollection`) and add an attribute (`runsTo_addAttribute`). On the way to the new
attribute all records are in their normal form already, so nothing else changes (`AddedAt`). Steps
that succeed one after another make a migration that succeeds (`resolve_of_runsTo`).
-/

namespace SchemaForge

open Change (withPart)

namespace Change

variable {ε α : Type} {change : Change Refusal α} {v x x' : Value} {a : α} {name : String}
  {fields : List (String × Value)}

/-- A change that succeeds on a part succeeds on the whole, and what it leaves of the part is put
back. -/
theorem runOn_within_of_ok {part : Value → Outcome Refusal Value} (hpart : part v = .ok x)
    (hrun : change.runOn x = (.ok a, x')) :
    (within name part change).runOn v = (.ok a, withPart name x' v) := by
  rw [runOn_within, hpart]
  dsimp only
  rw [hrun]

/-- A change that succeeds on what a mapping has under a key succeeds on the mapping. -/
theorem runOn_inItem_record (hget : Entries.get? name fields = some x)
    (hrun : change.runOn x = (.ok a, x')) :
    (inItem name change).runOn (.record fields)
      = (.ok a, .record (Entries.put name x' fields)) := by
  have hpart : (liftM ((Value.record fields).item name) : Outcome Refusal Value) = .ok x := by
    rw [Value.item_record hget]
    rfl
  rw [← Value.withPart_record]
  exact runOn_within_of_ok hpart hrun

/-- On a mapping with text keys, `write` puts the part in and succeeds. -/
theorem runOn_write_record : (write name x : Change ε Unit).runOn (.record fields)
    = (.ok (), .record (Entries.put name x fields)) :=
  runOn_replace (g := fun v => v.put name x) Value.put_record

/-- To `look` under a key of a mapping gives the value there, and the absent value if there is
nothing. -/
theorem runOn_look_record : (look name : Change ε Value).runOn (.record fields)
    = (.ok ((Entries.get? name fields).getD .null), .record fields) := by
  rw [runOn_look, Value.get_record]
  rfl

/-- The question `holds` asks whether there is something under a key of a mapping, and changes
nothing. -/
theorem runOn_holds_record : (holds name : Change ε Bool).runOn (.record fields)
    = (.ok (Entries.has name fields), .record fields) := by
  have hrun : (holds name : Change ε Bool).runOn (.record fields)
      = (liftM ((Value.record fields).contains name), .record fields) := rfl
  rw [hrun, Value.contains_record]
  rfl

end Change

namespace Operation

open Change (runOn_bind_eq_ok)

variable {ps : Parameters} {w : Working} {c : WorkingCollection} {r r' n n' : WorkingRecord}
  {key name : String} {path whole : List String} {a v base : Value} {flag : Bool}

/-! ## Attributes -/

/-- A mapping into which a sound record is put is in its normal form already, so that `normalise`
leaves it alone. -/
theorem runOn_normalise_laidOver (hv : v.isMapping = true) (hn : n.IsSound) :
    normalise.runOn (n.laidOver v) = (.ok (), n.laidOver v) := by
  have hproperties : (Change.look "properties" : Change Refusal Value).runOn (n.laidOver v)
      = (.ok (.record n.properties), n.laidOver v) := by
    rw [Change.runOn_look, Value.get_of_item (WorkingRecord.item_properties_laidOver hv)]
    rfl
  have hoptional : (Change.look "optional" : Change Refusal Value).runOn (n.laidOver v)
      = (.ok (.list (n.optional.map .str)), n.laidOver v) := by
    rw [Change.runOn_look, WorkingRecord.get_optional_laidOver hv]
    rfl
  have hmapping : Parameters.mappingOf "properties" (.record n.properties)
      = .ok (textEntries n.properties) :=
    congrArg Except.ok (Parameters.withTextKeys_textEntries hn)
  have hkeys : Parameters.keysOf "optional" (.list (n.optional.map .str)) = .ok n.optional :=
    congrArg Except.ok (map_text_map_str n.optional)
  have hover := WorkingRecord.isMapping_laidOver (r := n) hv
  -- The four steps of `normalise` in turn: both parts are read, found in order and written back.
  refine runOn_bind_eq_ok.mpr ⟨_, _, hproperties, ?_⟩
  refine runOn_bind_eq_ok.mpr ⟨_, n.laidOver v, congrArg (·, _) hmapping, ?_⟩
  refine runOn_bind_eq_ok.mpr ⟨(), n.laidOver v,
    Change.runOn_replace (g := fun w => w.put "properties" (.record n.properties)) ?_, ?_⟩
  · rw [Value.put_of_isMapping hover, WorkingRecord.withPart_properties_laidOver hv]
  refine runOn_bind_eq_ok.mpr ⟨_, _, hoptional, ?_⟩
  refine runOn_bind_eq_ok.mpr ⟨_, n.laidOver v, congrArg (·, _) hkeys, ?_⟩
  refine Change.runOn_replace (g := fun w => w.put "optional" (.list (n.optional.map .str))) ?_
  rw [Value.put_of_isMapping hover, WorkingRecord.withPart_optional_laidOver hv]

/-- A sound record is in its normal form already: `normalise` leaves it as it is. -/
theorem runOn_normalise (hn : n.IsSound) : normalise.runOn n.toValue = (.ok (), n.toValue) :=
  runOn_normalise_laidOver (v := recordOf [] []) rfl hn

/-- A change that succeeds on the attributes of a record succeeds on the record. -/
theorem runOn_inProperties {change : Change Refusal Unit} {fields : List (String × Value)}
    (hb : base.isMapping = true)
    (hrun : change.runOn (.record r.properties) = (.ok (), .record fields)) :
    (Change.inItem "properties" change).runOn (r.laidOver base)
      = (.ok (), WorkingRecord.laidOver base { r with properties := fields }) := by
  have hitem : (liftM ((r.laidOver base).item "properties") : Outcome Refusal Value)
      = .ok (.record r.properties) := by
    rw [WorkingRecord.item_properties_laidOver hb]
    rfl
  rw [Change.inItem, Change.runOn_within, hitem]
  dsimp only
  rw [hrun, WorkingRecord.withPart_properties_laidOver hb]

/-- The function `recordIn` finds the record attribute under a key. -/
theorem recordIn_of_get? {fields : List (String × Value)} {es : List (Scalar × Value)}
    (hget : Entries.get? key fields = some v) (hes : v.entries? = some es)
    (htype : (fieldOf "type" es).same (.str "record") = true) :
    recordIn whole key (.record fields) = .ok v := by
  unfold recordIn
  rw [Value.get_record, hget, Outcome.lift_ok, Outcome.ok_bind, Option.getD_some, hes]
  dsimp only
  rw [if_pos htype]
  rfl

/-- A change that succeeds further along a path, from the record under a key, succeeds from the
record at hand. -/
theorem runOn_inRecord_further {change : String → Change Refusal Unit} {next : String}
    {rest : List String} {u u' : Value} {es : List (Scalar × Value)} (hb : base.isMapping = true)
    (hget : Entries.get? key r.properties = some u) (hes : u.entries? = some es)
    (htype : (fieldOf "type" es).same (.str "record") = true)
    (hrun : (do normalise; inRecord whole change (next :: rest)).runOn u = (.ok (), u')) :
    (inRecord whole change (key :: next :: rest)).runOn (r.laidOver base)
      = (.ok (), WorkingRecord.laidOver base
        { r with properties := Entries.put key u' r.properties }) := by
  refine runOn_inProperties hb ?_
  rw [Change.runOn_within, recordIn_of_get? hget hes htype]
  dsimp only
  rw [hrun, Value.withPart_record]

/-- The value `a` is a new attribute at the end of a path of records that are all in their normal
form, and nothing else is changed on the way. -/
inductive AddedAt (a : Value) (flag : Bool) : List String → WorkingRecord → WorkingRecord → Prop
  /-- The record at hand gets the attribute. -/
  | here {key : String} {r : WorkingRecord} (hnew : Entries.has key r.properties = false) :
      AddedAt a flag [key] r ⟨Entries.put key a r.properties, withOptional key flag r.optional⟩
  /-- The path leads on to a record under a key. -/
  | further {key next : String} {rest : List String} {r n n' : WorkingRecord}
      (hget : Entries.get? key r.properties = some n.toValue) (hn : n.IsSound)
      (h : AddedAt a flag (next :: rest) n n') :
      AddedAt a flag (key :: next :: rest) r
        { r with properties := Entries.put key n'.toValue r.properties }

/-- The change that adds an attribute to the record at hand, as `runAddAttribute` runs it at the end
of the path. -/
def addUnder (ps : Parameters) (key : String) : Change Refusal Unit := do
  .inItem "properties" do
    if ← .holds key then .fail (.attributeExists key)
    let added ← ps.required "attribute"
    match added.entries? with
    | some entries => .write key (.mapping entries)
    | none => .fail (.notMapping "attribute" added)
  setOptional key (ps.optional "optional").isTruthy

variable {es : List (Scalar × Value)}

/-- The record at hand gets an attribute that it has not yet, and the key becomes optional as the
parameters say. -/
theorem runOn_addUnder (hadded : ps.required "attribute" = .ok a) (hes : a.entries? = some es)
    (hnew : Entries.has key r.properties = false) : (addUnder ps key).runOn r.toValue
      = (.ok (), WorkingRecord.toValue ⟨Entries.put key (.mapping es) r.properties,
        withOptional key (ps.optional "optional").isTruthy r.optional⟩) := by
  have hbase : (recordOf [] []).isMapping = true := rfl
  refine runOn_bind_eq_ok.mpr ⟨(), _, runOn_inProperties hbase ?_,
    runOn_setOptional hbase key _ ⟨Entries.put key (.mapping es) r.properties, r.optional⟩⟩
  refine runOn_bind_eq_ok.mpr ⟨_, _, Change.runOn_holds_record, ?_⟩
  rw [hnew]
  refine runOn_bind_eq_ok.mpr ⟨_, _, congrArg (·, _) hadded, ?_⟩
  rw [hes]
  exact Change.runOn_write_record

/-- The record at the end of a path gets an attribute. The induction is on `AddedAt`, which follows
the path. -/
theorem runOn_inRecord (hadded : ps.required "attribute" = .ok a) (hes : a.entries? = some es)
    (h : AddedAt (.mapping es) (ps.optional "optional").isTruthy path r r') :
    (inRecord whole (addUnder ps) path).runOn r.toValue = (.ok (), r'.toValue) := by
  induction h with
  | here hnew => exact runOn_addUnder hadded hes hnew
  | @further key next rest r n n' hget hn _ ih =>
    -- the next record is normalised before it is entered, which does nothing to it
    have hinner : (do normalise; inRecord whole (addUnder ps) (next :: rest)).runOn n.toValue
        = (.ok (), n'.toValue) := runOn_bind_eq_ok.mpr ⟨_, _, runOn_normalise hn, ih⟩
    have hbase : (recordOf [] []).isMapping = true := rfl
    exact runOn_inRecord_further hbase hget Value.entries?_record rfl hinner

/-- A change that succeeds on the collections of a state succeeds on the state. -/
theorem runOn_inCollections {change : Change Refusal Unit} {cs : List (String × WorkingCollection)}
    (hrun : change.runOn (WorkingCollection.allToValue w.collections)
      = (.ok (), WorkingCollection.allToValue cs)) :
    (Change.inItem "collections" change).runOn w.toValue
      = (.ok (), Working.toValue { w with collections := cs }) := by
  have hcollections : Entries.get? "collections" [("version", Value.int w.version),
      ("collections", WorkingCollection.allToValue w.collections)]
        = some (WorkingCollection.allToValue w.collections) := rfl
  exact Change.runOn_inItem_record hcollections hrun

/-- A change that succeeds on the collection of a name succeeds on the state. -/
theorem runOn_inCollection {change : Change Refusal Unit} {c' : WorkingCollection}
    (hget : Entries.get? name w.collections = some c)
    (hrun : change.runOn c.toValue = (.ok (), c'.toValue)) :
    (inCollection name change).runOn w.toValue = (.ok (), Working.toValue
      { w with collections := Entries.put name c' w.collections }) := by
  have hpart := Working.collectionIn_allToValue name w.collections
  rw [hget] at hpart
  have hwithin : (Change.within name (collectionIn name) change).runOn
      (WorkingCollection.allToValue w.collections)
        = (.ok (), withPart name c'.toValue (WorkingCollection.allToValue w.collections)) :=
    Change.runOn_within_of_ok hpart hrun
  rw [Working.withPart_allToValue] at hwithin
  exact runOn_inCollections hwithin

/-- A change that succeeds on the record that the parameters lead to succeeds on the state. -/
theorem runOn_locate {change : String → Change Refusal Unit}
    (hname : ps.nameOf "collection" = .ok name) (hpath : ps.path = .ok path) (hne : path ≠ [])
    (hget : Entries.get? name w.collections = some c)
    (hrun : (inRecord path change path).runOn c.record.toValue = (.ok (), r'.toValue)) :
    (locate ps change).runOn w.toValue = (.ok (), Working.toValue
      { w with collections := Entries.put name { c with record := r' } w.collections }) := by
  have hschema : (WorkingCollection.toValue { c with record := r' })
      = .record (Entries.put "schema" r'.toValue (("schema", c.record.toValue) ::
        c.rules.elim [] fun rules => [("rules", .record rules)])) := rfl
  refine runOn_bind_eq_ok.mpr ⟨_, _, congrArg (·, _) hname, ?_⟩
  refine runOn_inCollection hget ?_
  refine runOn_bind_eq_ok.mpr ⟨_, _, congrArg (·, _) hpath, ?_⟩
  dsimp only
  rw [if_neg (by rwa [List.isEmpty_iff]), hschema]
  exact Change.runOn_inItem_record rfl hrun

/-- The operation `runAddAttribute` succeeds where the path leads to a record that has no such
attribute yet. -/
theorem runOn_addAttribute (hname : ps.nameOf "collection" = .ok name) (hpath : ps.path = .ok path)
    (hget : Entries.get? name w.collections = some c) (hadded : ps.required "attribute" = .ok a)
    (hes : a.entries? = some es)
    (h : AddedAt (.mapping es) (ps.optional "optional").isTruthy path c.record r') :
    (runAddAttribute ps).runOn w.toValue = (.ok (), Working.toValue
      { w with collections := Entries.put name { c with record := r' } w.collections }) := by
  have hne : path ≠ [] := by
    cases h <;> exact List.cons_ne_nil _ _
  exact runOn_locate hname hpath hne hget (runOn_inRecord hadded hes h)

/-! ## Collections -/

/-- The operation `runCreateCollection` succeeds where there is no collection of the name, and makes
the one that the parameters specify. -/
theorem runOn_createCollection (hname : ps.nameOf "name" = .ok name)
    (hnew : Entries.has name w.collections = false) (hc : Specifies ps c) :
    (runCreateCollection ps).runOn w.toValue = (.ok (), Working.toValue
      { w with collections := Entries.put name c w.collections }) := by
  have hnew' : Entries.has name (Entries.mapValues WorkingCollection.toValue w.collections)
      = false := by
    rwa [Entries.has, Entries.get?_mapValues, Option.isSome_map]
  have hafter : WorkingCollection.allToValue (Entries.put name c w.collections)
      = .record (Entries.put name c.toValue
        (Entries.mapValues WorkingCollection.toValue w.collections)) := by
    rw [WorkingCollection.allToValue, Entries.put_mapValues]
  refine runOn_bind_eq_ok.mpr ⟨_, _, congrArg (·, _) hname, ?_⟩
  refine runOn_inCollections ?_
  rw [hafter]
  refine runOn_bind_eq_ok.mpr ⟨_, _, Change.runOn_holds_record, ?_⟩
  rw [hnew']
  refine runOn_bind_eq_ok.mpr ⟨_, _, congrArg (·, _) hc.properties, ?_⟩
  refine runOn_bind_eq_ok.mpr ⟨_, _, congrArg (·, _) hc.optional, ?_⟩
  dsimp only
  obtain ⟨record, rules⟩ := c
  have hrules := hc.rules
  -- The rules are looked at last, and only a collection that specifies some has them written.
  rw [← hc.isNone_rules]
  cases rules with
  | none => exact Change.runOn_write_record
  | some rules =>
    refine runOn_bind_eq_ok.mpr ⟨_, _, congrArg (·, _) hrules, ?_⟩
    exact Change.runOn_write_record

end Operation

/-! ## Runs -/

namespace Migration

open Operation (AddedAt Specifies)

variable {step : Value} {steps steps' : List Value} {w w' w'' : Working} {op : Operation}
  {ps : Parameters} {name : String} {c : WorkingCollection}

/-- A step runs as the operation that it `Denotes`, with its parameters. -/
theorem runOn_runStep (h : Denotes step op ps) (v : Value) :
    (runStep step).runOn v = (op.run ps).runOn v := by
  obtain ⟨name, parameters, s, hparts, hop, hps⟩ := h
  rw [runStep, hparts, Change.runOn_bind, Change.runOn_lift]
  dsimp only
  rw [hop, Change.runOn_bind, Change.runOn_lift]
  dsimp only
  rw [hps]

/-- The steps succeed one after another, and lead from the one state to the other. -/
def RunsTo (steps : List Value) (w w' : Working) : Prop :=
  (steps.forM runStep : Change Refusal PUnit).runOn w.toValue = (.ok ⟨⟩, w'.toValue)

/-- No steps lead from a state to itself. -/
theorem RunsTo.nil : RunsTo [] w w := rfl

/-- If a step leads to a state from which the others go on, all of them do. -/
theorem RunsTo.cons (h : (runStep step).runOn w.toValue = (.ok (), w'.toValue))
    (hrest : RunsTo steps w' w'') : RunsTo (step :: steps) w w'' :=
  Change.runOn_bind_eq_ok.mpr ⟨_, _, h, hrest⟩

/-- Steps that succeed up to a state and others that succeed from there succeed together. -/
theorem RunsTo.append (h : RunsTo steps w w') (h' : RunsTo steps' w' w'') :
    RunsTo (steps ++ steps') w w'' := by
  have hsplit : ((steps ++ steps').forM runStep : Change Refusal PUnit)
      = steps.forM runStep >>= fun _ => steps'.forM runStep := List.forM_append
  rw [RunsTo, hsplit]
  exact Change.runOn_bind_eq_ok.mpr ⟨_, _, h, h'⟩

/-- A step that creates a collection runs to the state with this collection at the end. -/
theorem runsTo_createCollection (h : Denotes step .createCollection ps)
    (hname : ps.nameOf "name" = .ok name) (hnew : Entries.has name w.collections = false)
    (hc : Specifies ps c) :
    RunsTo [step] w { w with collections := Entries.put name c w.collections } := by
  refine RunsTo.cons ?_ .nil
  rw [runOn_runStep h]
  exact Operation.runOn_createCollection hname hnew hc

/-- A step that adds an attribute runs to the state with this attribute at the end of its path. -/
theorem runsTo_addAttribute {path : List String} {a : Value} {es : List (Scalar × Value)}
    {r : WorkingRecord} (h : Denotes step .addAttribute ps)
    (hname : ps.nameOf "collection" = .ok name) (hpath : ps.path = .ok path)
    (hget : Entries.get? name w.collections = some c) (hadded : ps.required "attribute" = .ok a)
    (hes : a.entries? = some es)
    (hr : AddedAt (.mapping es) (ps.optional "optional").isTruthy path c.record r) :
    RunsTo [step] w
      { w with collections := Entries.put name { c with record := r } w.collections } := by
  refine RunsTo.cons ?_ .nil
  rw [runOn_runStep h]
  exact Operation.runOn_addAttribute hname hpath hget hadded hes hr

/-- Changes that succeed one after another also succeed when their errors are seen as others. -/
theorem runOn_forM_seenAs {ε δ : Type} (f : ε → δ) {change : Value → Change ε PUnit}
    {vs : List Value} {v v' : Value} (h : (vs.forM change).runOn v = (.ok ⟨⟩, v')) :
    (vs.forM fun x => (change x).seenAs f).runOn v = (.ok ⟨⟩, v') := by
  induction vs generalizing v with
  | nil =>
    obtain ⟨-, rfl⟩ := Prod.mk.inj h
    rfl
  | cons x vs ih =>
    obtain ⟨_, u, hfirst, hrest⟩ := Change.runOn_bind_eq_ok.mp h
    refine Change.runOn_bind_eq_ok.mpr ⟨⟨⟩, u, ?_, ih hrest⟩
    rw [runOn_seenAs, hfirst]
    rfl

/-- The migration to a version by several steps, as a document gives it. -/
def migrationOf (version : Int) (steps : List Value) : Value :=
  .record [("version", .int version), ("up", .list steps)]

/-- A migration succeeds if its steps do, and gives the state its version. -/
theorem runOn_apply_migrationOf (version : Int) (h : RunsTo steps w w') :
    (apply (migrationOf version steps)).runOn w.toValue
      = (.ok (), Working.toValue { w' with version := version }) := by
  have hup : (migrationOf version steps).get "up" = .ok (.list steps) := Value.get_record
  have helements : ((Value.list steps).orElse (.list [])).elements = .ok steps := by
    cases steps <;> rfl
  refine Change.runOn_bind_eq_ok.mpr ⟨version, _, rfl, ?_⟩
  rw [hup]
  refine Change.runOn_bind_eq_ok.mpr ⟨.list steps, _, rfl, ?_⟩
  rw [helements]
  refine Change.runOn_bind_eq_ok.mpr ⟨steps, _, rfl, ?_⟩
  refine Change.runOn_bind_eq_ok.mpr ⟨⟨⟩, _, runOn_forM_seenAs _ h, ?_⟩
  exact runOn_writeVersion w' version

/-- The function `resolve` gives for one migration, whose steps succeed, what is read of the state
after them. -/
theorem resolve_of_runsTo (version : Int) (h : RunsTo steps ⟨0, []⟩ w') {s : Schema}
    (hs : Schema.ofValue (Working.toValue { w' with version := version }) = .ok (some s)) :
    resolve (.list [migrationOf version steps]) = .ok (some s) := by
  have hversion : versionOf (migrationOf version steps) = .ok version := rfl
  have hinOrder : inOrder [migrationOf version steps] = .ok [migrationOf version steps] :=
    inOrder_of_pairwise (List.forall_mem_singleton.mpr ⟨version, hversion⟩)
      (List.pairwise_singleton _ _)
  have hrun : ([migrationOf version steps].forM apply :
      Change MigrationError PUnit).runOn emptyState
        = (.ok ⟨⟩, Working.toValue { w' with version := version }) :=
    Change.runOn_bind_eq_ok.mpr ⟨(), _, runOn_apply_migrationOf version h, rfl⟩
  show replay [migrationOf version steps] = _
  rw [replay, hinOrder, Outcome.ok_bind, hrun]
  show schemaOf _ = _
  rw [schemaOf, hs]
  rfl

end Migration

end SchemaForge
