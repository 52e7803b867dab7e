import SchemaForge.Proofs.Migration.Success
import SchemaForge.Proofs.Schema.DocumentRoundTrip

/-!
# Schemas built by migrations

With the operations of section 6.1 of the specification a schema can be built by one step for each
collection, which carries all its attributes (`bulkSteps`), or attribute by attribute, each record
first without attributes and then filled by path (`Schema.fillSteps`, `Schema.growSteps`). Both ways
lead to the same schema (`resolve_bulk_eq_stepwise`). In the second way every new attribute lies at
the end of a path of records, some of them half built: the record at hand in the place of the last
key of a path is `plug`ged into those around it, and the invariant is that these do not change
otherwise.
-/

namespace SchemaForge

open Migration (RunsTo migrationOf Denotes)
open Operation (AddedAt Specifies withOptional recordOf)

/-! ## Steps -/

/-- The parameters of `create_collection`: a name with its attributes, its optional keys and its
rules, which may be absent. -/
def createParameters (name : String) (properties optional rules : Value) : Parameters :=
  textEntries ([("name", .str name), ("schema", properties), ("optional", optional)]
    ++ if rules.isNull then [] else [("rules", rules)])

/-- The step that makes a collection with given attributes, optional keys and rules. -/
def createStep (name : String) (properties optional rules : Value) : Value :=
  .list [.str "create_collection", .mapping (createParameters name properties optional rules)]

/-- The parameters of `add_attribute` for a new attribute at the end of a path. -/
def addParameters (name : String) (path : List String) (a : Value) (optional : Bool) :
    Parameters :=
  textEntries [("collection", .str name), ("path", .list (path.map .str)), ("attribute", a),
    ("optional", .bool optional)]

/-- The step `add_attribute` for an attribute at the end of a path in a collection, as a migration
holds it. -/
def addStep (name : String) (path : List String) (a : Value) (optional : Bool) : Value :=
  .list [.str "add_attribute", .mapping (addParameters name path a optional)]

/-- The step that makes a collection as its document describes it, with everything in it. -/
def createStepOf (name : String) (document : Value) : Value :=
  let entries := document.entries?.getD []
  let tree := (fieldOf "schema" entries).entries?.getD []
  createStep name (fieldOf "properties" tree) (fieldOf "optional" tree) (fieldOf "rules" entries)

/-- The steps that make the collections of the document of a schema, one for each. -/
def bulkSteps (document : Value) : List Value :=
  ((fieldOf "collections" (document.entries?.getD [])).entries?.getD []).map fun e =>
    createStepOf e.1.text e.2

mutual

/-- The steps that add an attribute: a record is added without attributes and then filled, and any
other attribute is added by one step. -/
def Attribute.addSteps (name : String) (path : List String) (optional : Bool) :
    Attribute → Except Fault (List Value)
  | .record properties keys => do
    let steps ← addAllSteps name path keys properties
    return addStep name path (recordOf [] []) optional :: steps
  | a => do return [addStep name path (← a.toValue) optional]

/-- The steps that add several attributes to the record at a path, each one with all that is in it
before the next one. -/
def addAllSteps (name : String) (path : List String) (keys : List String) :
    List (String × Attribute) → Except Fault (List Value)
  | [] => .ok []
  | (key, a) :: rest => do
    let steps ← a.addSteps name (path ++ [key]) (keys.contains key)
    return steps ++ (← addAllSteps name path keys rest)

end

/-- The step that makes a collection without attributes, but with its rules. -/
def Collection.emptyStep (name : String) (c : Collection) : Value :=
  createStep name (.record []) (.list []) c.rules

/-- The steps that add all attributes of a collection one by one, with the records before what is in
them. -/
def Collection.addSteps (name : String) (c : Collection) : Except Fault (List Value) :=
  addAllSteps name [] c.schema.optional c.schema.properties

/-- The steps of `Collection.addSteps` for several collections, one collection after the other. -/
def addStepsOfAll : List (String × Collection) → Except Fault (List Value)
  | [] => .ok []
  | (name, c) :: rest => do
    let steps ← c.addSteps name
    return steps ++ (← addStepsOfAll rest)

/-- The steps that make all collections without attributes first, and then add the attributes of
each. -/
def Schema.fillSteps (s : Schema) : Except Fault (List Value) := do
  let steps ← addStepsOfAll s.collections
  return (s.collections.map fun p => p.2.emptyStep p.1) ++ steps

/-- The steps that make one collection after the other, each without attributes at first. -/
def growStepsOfAll : List (String × Collection) → Except Fault (List Value)
  | [] => .ok []
  | (name, c) :: rest => do
    let steps ← c.addSteps name
    return (c.emptyStep name :: steps) ++ (← growStepsOfAll rest)

/-- The steps that make the collections of a schema one after the other, and each of them attribute
by attribute. -/
def Schema.growSteps (s : Schema) : Except Fault (List Value) := growStepsOfAll s.collections

/-! ## Records within records -/

/-- A record in the place of the last of the keys of several records, each of which lies in the one
before it. -/
def plug : List (String × WorkingRecord) → WorkingRecord → WorkingRecord
  | [], n => n
  | (key, r) :: frames, n =>
    { r with properties := Entries.put key (plug frames n).toValue r.properties }

variable {frames : List (String × WorkingRecord)} {r r' r'' n : WorkingRecord} {key name : String}
  {a : Value} {flag : Bool} {steps steps' : List Value}

/-- To `plug` a record into several frames and one more is to put it into the last of them and this
one into the others. -/
theorem plug_append (frames : List (String × WorkingRecord)) (key : String) (r n : WorkingRecord) :
    plug (frames ++ [(key, r)]) n
      = plug frames { r with properties := Entries.put key n.toValue r.properties } := by
  induction frames with
  | nil => rfl
  | cons frame frames ih => rw [List.cons_append, plug, ih, plug]

/-- Where all frames and the record in the middle are sound, the record that `plug` makes of them
is. -/
theorem isSound_plug (hframes : ∀ f ∈ frames, f.2.IsSound) (hn : n.IsSound) :
    (plug frames n).IsSound := by
  cases frames with
  | nil => exact hn
  | cons frame frames => exact Entries.nodup_keys_put (hframes frame List.mem_cons_self)

/-- An attribute that is added to the record at hand is added at the end of the path that leads to
it, and nothing around it changes. -/
theorem addedAt_plug (hframes : ∀ f ∈ frames, f.2.IsSound) (hn : n.IsSound)
    (hnew : Entries.has key n.properties = false) :
    AddedAt a flag (frames.map (·.1) ++ [key]) (plug frames n)
      (plug frames ⟨Entries.put key a n.properties, withOptional key flag n.optional⟩) := by
  induction frames with
  | nil => exact .here hnew
  | cons frame frames ih =>
    obtain ⟨k, r⟩ := frame
    have hrest : ∀ f ∈ frames, f.2.IsSound := fun f hf => hframes f (List.mem_cons_of_mem _ hf)
    have hadded := ih hrest
    -- The path below the frame is not empty, so `AddedAt` goes further and does not end here.
    obtain ⟨next, rest, hpath⟩ : ∃ next rest, frames.map (·.1) ++ [key] = next :: rest :=
      List.exists_cons_of_ne_nil (by simp)
    rw [hpath] at hadded
    have hfurther := AddedAt.further (r := { r with
      properties := Entries.put k (plug frames n).toValue r.properties })
        Entries.get?_put_self (isSound_plug hrest hn) hadded
    rw [List.map_cons, List.cons_append, hpath, plug, plug]
    rwa [Entries.put_put (beq_self_eq_true k)] at hfurther

/-! ## Steps that build records -/

/-- The steps make another record of that of a collection, on every sound state, and change nothing
else. -/
def Builds (name : String) (steps : List Value) (r r' : WorkingRecord) : Prop :=
  ∀ (w : Working) (rules : Option (List (String × Value))),
    Entries.get? name w.collections = some ⟨r, rules⟩ →
      RunsTo steps w { w with collections := Entries.put name ⟨r', rules⟩ w.collections }

/-- Without steps a record is built to itself. -/
theorem builds_nil : Builds name [] r r := by
  intro w rules hget
  rw [Entries.put_of_get? hget]
  exact .nil

/-- Steps that build a record out of what others have built, build it together with these. -/
theorem Builds.append (h : Builds name steps r r') (h' : Builds name steps' r' r'') :
    Builds name (steps ++ steps') r r'' := by
  intro w rules hget
  have hlast := h' { w with collections := Entries.put name ⟨r', rules⟩ w.collections } rules
    Entries.get?_put_self
  rw [Entries.put_put (beq_self_eq_true name)] at hlast
  exact (h w rules hget).append hlast

/-- One step adds an attribute to the record at hand, in whatever records it lies. -/
theorem builds_addStep {fields : List (String × Value)} (hframes : ∀ f ∈ frames, f.2.IsSound)
    (hn : n.IsSound) (hnew : Entries.has key n.properties = false) :
    Builds name [addStep name (frames.map (·.1) ++ [key]) (.record fields) flag] (plug frames n)
      (plug frames ⟨Entries.put key (.record fields) n.properties,
        withOptional key flag n.optional⟩) := by
  intro w rules hget
  have hstep : Denotes (addStep name (frames.map (·.1) ++ [key]) (.record fields) flag)
      .addAttribute (addParameters name (frames.map (·.1) ++ [key]) (.record fields) flag) :=
    ⟨_, _, "add_attribute", rfl, rfl, rfl⟩
  have hpath : Parameters.path
      (addParameters name (frames.map (·.1) ++ [key]) (.record fields) flag)
        = .ok (frames.map (·.1) ++ [key]) := congrArg Except.ok (Operation.map_text_map_str _)
  exact Migration.runsTo_addAttribute hstep rfl hpath hget rfl rfl
    (addedAt_plug hframes hn hnew)

/-- The steps that add the attribute build every record that gets it as a new one, at the end of
every path. -/
def Attribute.IsBuilt (a : Attribute) : Prop :=
  ∀ v, a.toValue = .ok v → ∀ (name key : String) (frames : List (String × WorkingRecord))
    (n : WorkingRecord) (flag : Bool), (∀ f ∈ frames, f.2.IsSound) → n.IsSound →
      Entries.has key n.properties = false →
        ∃ steps, a.addSteps name (frames.map (·.1) ++ [key]) flag = .ok steps ∧
          Builds name steps (plug frames n)
            (plug frames ⟨Entries.put key v n.properties, withOptional key flag n.optional⟩)

/-- An attribute that is no record is built by one step, which carries its value as `toValue` gives
it. -/
theorem isBuilt_of_addSteps {a : Attribute} {fields : List (String × Value)}
    (htoValue : a.toValue = .ok (.record fields))
    (hsteps : ∀ name path flag, a.addSteps name path flag
      = a.toValue >>= fun v => .ok [addStep name path v flag]) : a.IsBuilt := by
  intro v hv name key frames n flag hframes hn hnew
  cases htoValue.symm.trans hv
  refine ⟨_, ?_, builds_addStep hframes hn hnew⟩
  rw [hsteps, htoValue]
  rfl

/-- A key that is not optional yet is put at the end of the optional keys, or not. -/
theorem withOptional_of_not_mem {keys : List String} (h : key ∉ keys) :
    withOptional key flag keys = keys ++ if flag then [key] else [] := by
  have hothers : keys.filter (· ≠ key) = keys := by
    refine List.filter_eq_self.mpr fun k hk => ?_
    have hne : k ≠ key := fun heq => h (heq ▸ hk)
    simpa using hne
  unfold withOptional
  rw [hothers]
  cases flag with
  | true => rfl
  | false => exact (List.append_nil keys).symm

/-- The steps that add several attributes build the record that gets all of them, in their order.
The induction is on the attributes. -/
theorem exists_addAllSteps {ps : List (String × Attribute)} (h : ∀ p ∈ ps, p.2.IsBuilt)
    {documents : List (String × Value)} (hdocuments : propertiesToValues ps = .ok documents)
    (name : String) (keys : List String) (hframes : ∀ f ∈ frames, f.2.IsSound)
    (hn : (Entries.keys n.properties ++ Entries.keys ps).Nodup)
    (hoptional : ∀ key ∈ Entries.keys ps, key ∉ n.optional) :
    ∃ steps, addAllSteps name (frames.map (·.1)) keys ps = .ok steps ∧
      Builds name steps (plug frames n) (plug frames
        ⟨n.properties ++ documents, n.optional ++ listedOptional ps keys⟩) := by
  induction ps generalizing n documents with
  | nil =>
    cases hdocuments
    refine ⟨[], rfl, ?_⟩
    have hsame : (⟨n.properties ++ [], n.optional ++ listedOptional [] keys⟩ : WorkingRecord)
        = n := by
      show (⟨n.properties ++ [], n.optional ++ []⟩ : WorkingRecord) = n
      rw [List.append_nil, List.append_nil]
    rw [hsame]
    exact builds_nil
  | cons p ps ih =>
    obtain ⟨key, a⟩ := p
    obtain ⟨v, hv, hdocuments⟩ := Outcome.bind_eq_ok.mp hdocuments
    obtain ⟨rest, hrest, hdocuments⟩ := Outcome.bind_eq_ok.mp hdocuments
    cases hdocuments
    obtain ⟨hsound, -, hdisjoint⟩ := List.nodup_append.mp hn
    have hkey : key ∉ Entries.keys n.properties := fun hmem =>
      hdisjoint key hmem key List.mem_cons_self rfl
    have hnew : Entries.has key n.properties = false := by
      rw [← Bool.not_eq_true, Entries.has_iff]
      exact hkey
    have hkeyOptional := hoptional key List.mem_cons_self
    obtain ⟨first, hfirst, hbuilds⟩ := h (key, a) List.mem_cons_self v hv name key frames n
      (keys.contains key) hframes hsound hnew
    rw [Entries.put_of_not_mem hkey, withOptional_of_not_mem hkeyOptional] at hbuilds
    -- the other attributes are added to a record that has this one already
    have hn' : (Entries.keys (n.properties ++ [(key, v)]) ++ Entries.keys ps).Nodup := by
      rw [Entries.keys, List.map_append, List.append_assoc]
      exact hn
    have hoptional' : ∀ k ∈ Entries.keys ps,
        k ∉ n.optional ++ if keys.contains key = true then [key] else [] := by
      intro k hk hmem
      have hne : k ≠ key := by
        rintro rfl
        exact (List.nodup_cons.mp (List.nodup_append.mp hn).2.1).1 hk
      rcases List.mem_append.mp hmem with hmem | hmem
      · exact hoptional k (List.mem_cons_of_mem _ hk) hmem
      · split at hmem
        · exact hne (List.mem_singleton.mp hmem)
        · exact absurd hmem List.not_mem_nil
    obtain ⟨others, hothers, hbuilds'⟩ := ih (fun q hq => h q (List.mem_cons_of_mem _ hq)) hrest
      (n := ⟨_, _⟩) hn' hoptional'
    refine ⟨first ++ others, ?_, ?_⟩
    · rw [addAllSteps, hfirst, hothers]
      rfl
    · have hlisted : listedOptional ((key, a) :: ps) keys
          = (if keys.contains key = true then [key] else []) ++ listedOptional ps keys := by
        rw [listedOptional, Entries.keys, List.map_cons, List.filter_cons]
        split <;> rfl
      have hall := hbuilds.append hbuilds'
      rwa [List.append_assoc, List.append_assoc, ← hlisted] at hall

/-- A record is built: it is added without attributes, and is then filled at the path to it. -/
theorem isBuilt_record {ps : List (String × Attribute)} {keys : List String}
    (hn : (Entries.keys ps).Nodup) (h : ∀ p ∈ ps, p.2.IsBuilt) :
    (Attribute.record ps keys).IsBuilt := by
  intro v hv name key frames n flag hframes hsound hnew
  obtain ⟨documents, hdocuments, hv⟩ := Outcome.bind_eq_ok.mp hv
  cases hv
  -- the record around it, with the new one in it
  let outer : WorkingRecord := ⟨Entries.put key (recordOf [] []) n.properties,
    withOptional key flag n.optional⟩
  have houter : ∀ f ∈ frames ++ [(key, outer)], f.2.IsSound := by
    intro f hf
    rcases List.mem_append.mp hf with hf | hf
    · exact hframes f hf
    · rw [List.mem_singleton.mp hf]
      exact Entries.nodup_keys_put hsound
  have hpath : (frames ++ [(key, outer)]).map (·.1) = frames.map (·.1) ++ [key] := by
    rw [List.map_append]
    rfl
  have hplug : ∀ m : WorkingRecord, plug (frames ++ [(key, outer)]) m = plug frames
      ⟨Entries.put key m.toValue n.properties, withOptional key flag n.optional⟩ := by
    intro m
    rw [plug_append]
    show plug frames ⟨Entries.put key m.toValue (Entries.put key _ n.properties), _⟩ = _
    rw [Entries.put_put (beq_self_eq_true key)]
  obtain ⟨steps, hsteps, hbuilds⟩ := exists_addAllSteps h hdocuments name keys houter
    (n := ⟨[], []⟩) hn fun _ _ => List.not_mem_nil
  rw [hpath] at hsteps
  rw [hplug, hplug] at hbuilds
  refine ⟨addStep name (frames.map (·.1) ++ [key]) (recordOf [] []) flag :: steps, ?_, ?_⟩
  · rw [Attribute.addSteps, hsteps]
    rfl
  · exact (builds_addStep hframes hsound hnew).append hbuilds

/-- Every attribute in the form of what is read is built. The induction is on the attribute. -/
theorem Attribute.IsRead.isBuilt {a : Attribute} (h : a.IsRead) : a.IsBuilt := by
  induction h with
  | primitive hk ho => exact isBuilt_of_addSteps rfl fun _ _ _ => rfl
  | set hk ho ho' => exact isBuilt_of_addSteps rfl fun _ _ _ => rfl
  | record hn _ ih => exact isBuilt_record hn ih
  | relation hc ht => exact isBuilt_of_addSteps rfl fun _ _ _ => rfl

end SchemaForge
