import Mathlib
import SchemaForge.Proofs.Migration.Tidiness
import SchemaForge.Proofs.Schema.Foreseen

/-!
# Migrations of a foreseen shape

Steps store what they are given without a look at it, and it is read when all migrations have been
replayed. So migrations lead to a schema or to a `MigrationError`, and never break down
(`isAnnounced_resolve`), if their versions are no infinite numbers, their steps stand in what a loop
may run over, and the attributes and the settings that the steps are given have a foreseen shape.

Every operation keeps the shape of the attributes in a state foreseen (`Leads.eachRecord`), those
that are dropped, altered or carried along alike; steps that fail do not matter, since the run ends
there.
-/

namespace SchemaForge

open Change (withPart)
open Outcome (IsAnnounced isAnnounced_ok isAnnounced_refuse)

variable {v x : Value} {es : List (Scalar × Value)} {name key : String}
  {fields : List (String × Value)}

/-! ## Changes of records -/

/-- All attributes of a record in its normal form have a foreseen shape. -/
def WorkingRecord.IsForeseen (r : WorkingRecord) : Prop := ∀ p ∈ r.properties, p.2.IsForeseen

/-- Entries without links stay so when something without links is put among them. -/
theorem Value.within_of_mem_put (hes : ∀ e ∈ es, e.2.within [] = e.2) (hx : x.within [] = x) :
    ∀ e ∈ Entries.put (.str name) x es, e.2.within [] = e.2 := by
  intro e he
  rcases Entries.snd_of_mem_put he with heq | hmem
  · rwa [heq]
  · exact hes e hmem

/-- A mapping of a foreseen shape into which a record of such a shape is put has a foreseen
shape. -/
theorem WorkingRecord.IsForeseen.laidOver {n : WorkingRecord} (hn : n.IsForeseen) (h : v.IsForeseen)
    (hes : v.entries? = some es) : (n.laidOver v).IsForeseen := by
  cases h with
  | other _ h => cases h.symm.trans hes
  | mapping hwithin _ _ hcardinality hoptions _ hitems =>
    cases hes
    have hover : n.laidOver (.mapping es) = .mapping (Entries.put (.str "optional")
        (.list (n.optional.map .str))
          (Entries.put (.str "properties") (.record n.properties) es)) := rfl
    -- All other fields are those of the mapping.
    have hother : ∀ name, "optional" ≠ name → "properties" ≠ name →
        fieldOf name (Entries.put (.str "optional") (.list (n.optional.map .str))
          (Entries.put (.str "properties") (.record n.properties) es)) = fieldOf name es := by
      intro name ho hp
      rw [fieldOf_put_of_ne ho, fieldOf_put_of_ne hp]
    have hproperties : fieldOf "properties" (Entries.put (.str "optional")
        (.list (n.optional.map .str)) (Entries.put (.str "properties") (.record n.properties) es))
          = .record n.properties := by
      rw [fieldOf_put_of_ne (by decide), fieldOf_put_self]
    rw [hover]
    refine .mapping ?_ ?_ ?_ ?_ ?_ ?_ ?_
    · exact Value.within_of_mem_put (Value.within_of_mem_put hwithin rfl) rfl
    · intro _
      rw [fieldOf_put_self]
      exact Value.isLoopable_list _
    · intro _
      rw [hproperties]
      rfl
    · rwa [hother _ (by decide) (by decide), hother _ (by decide) (by decide)]
    · rwa [hother _ (by decide) (by decide)]
    · rw [hproperties, Value.entries?_record]
      intro _ e he
      obtain ⟨p, hp, rfl⟩ := List.mem_map.mp he
      exact hn p hp
    · rwa [hother _ (by decide) (by decide), hother _ (by decide) (by decide)]

/-- An attribute keeps a foreseen shape when it gets settings of a foreseen shape. -/
theorem Value.IsForeseen.withOptions (h : v.IsForeseen) (hv : v.isMapping = true)
    (hx : x.IsForeseenOptions) (hwithin : x.within [] = x) :
    (withPart "options" x v).IsForeseen := by
  cases h with
  | other _ h =>
    obtain ⟨es, hes⟩ := Value.exists_entries? hv
    cases h.symm.trans hes
  | @mapping es hall hoptional hknot hcardinality _ hproperties hitems =>
    -- Only the settings change, and the other conditions are about other fields.
    have hother : ∀ name, "options" ≠ name →
        fieldOf name (Entries.put (.str "options") x es) = fieldOf name es :=
      fun name hne => fieldOf_put_of_ne hne
    show (Value.mapping (Entries.put (.str "options") x es)).IsForeseen
    refine .mapping (Value.within_of_mem_put hall hwithin) ?_ ?_ ?_ ?_ ?_ ?_
    · rwa [hother _ (by decide), hother _ (by decide)]
    · rwa [hother _ (by decide), hother _ (by decide)]
    · rwa [hother _ (by decide), hother _ (by decide)]
    · rwa [fieldOf_put_self]
    · rwa [hother _ (by decide), hother _ (by decide)]
    · rwa [hother _ (by decide), hother _ (by decide)]

namespace Operation

variable {F : String → WorkingRecord → WorkingRecord → Prop} {path : List String}
  {ps : Parameters} {w w' : Working} {r r' n : WorkingRecord}

/-- The attributes that `mappingOf` takes have a foreseen shape, if the values of the mapping
have. -/
theorem isForeseen_mappingOf {properties : Value} {keys : List String}
    (hall : ∀ e ∈ properties.entries?.getD [], e.2.IsForeseen)
    (hfields : Parameters.mappingOf name properties = .ok (textEntries fields)) :
    WorkingRecord.IsForeseen ⟨fields, keys⟩ := by
  intro f hf
  obtain ⟨e, he, rfl⟩ := (Parameters.mem_of_mappingOf hfields).2 f hf
  exact hall e he

/-- The normal form of a record of a foreseen shape has a foreseen shape. -/
theorem isForeseen_normalForm (h : v.IsForeseen) (hes : v.entries? = some es)
    (htype : (fieldOf "type" es).same (.str "record") = true) (hn : NormalForm v n) :
    n.IsForeseen := by
  cases h with
  | other _ h => cases h.symm.trans hes
  | mapping _ _ _ _ _ hproperties _ =>
    cases hes
    obtain ⟨-, p, -, hp, hfields, -⟩ := hn
    obtain rfl : fieldOf "properties" es = p := Except.ok.inj hp
    exact isForeseen_mappingOf (hproperties htype) hfields

/-- A record keeps a foreseen shape when an attribute of such a shape is put into it. -/
theorem isForeseen_put (h : r.IsForeseen) (hx : x.IsForeseen) :
    WorkingRecord.IsForeseen { r with properties := Entries.put key x r.properties } := by
  intro p hp
  rcases Entries.mem_put hp with rfl | hp
  · exact hx
  · exact h p hp

/-- A change of records leaves records of a foreseen shape where it finds such ones. -/
def KeepsForeseen (F : String → WorkingRecord → WorkingRecord → Prop) : Prop :=
  ∀ key r r', F key r r' → r.IsForeseen → r'.IsForeseen

/-- A change at the end of a path keeps the shape of the record at its start foreseen. The induction
is on the path. -/
theorem ChangedAt.isForeseen (hF : KeepsForeseen F) (h : ChangedAt F path r r')
    (hr : r.IsForeseen) : r'.IsForeseen := by
  induction h with
  | here h => exact hF _ _ _ h hr
  | further hget hes htype hn _ _ ih =>
    have hv := hr _ (Entries.mem_of_get? hget)
    have hn' := ih (isForeseen_normalForm hv hes htype hn)
    exact isForeseen_put hr (hn'.laidOver hv hes)

/-- A record keeps a foreseen shape when an attribute of such a shape is added. -/
theorem keepsForeseen_adds (h : (ps.optional "attribute").IsForeseen) :
    KeepsForeseen (Adds ps) := by
  rintro key r _ ⟨-, added, entries, hadded, hentries, rfl⟩ hr
  rw [Parameters.optional_of_required hadded] at h
  exact isForeseen_put (r := r) hr (h.eq_mapping hentries ▸ h)

/-- A record keeps a foreseen shape when an attribute is dropped of it (`Drops`). -/
theorem keepsForeseen_drops : KeepsForeseen Drops := by
  rintro key r _ ⟨-, rfl⟩ hr
  exact fun p hp => hr p (Entries.mem_of_mem_remove hp)

/-- A record keeps a foreseen shape when an attribute is made optional or not. -/
theorem keepsForeseen_marks : KeepsForeseen (Marks ps) := by
  rintro key r _ ⟨-, flag, -, rfl⟩ hr
  exact hr

/-- Settings that are laid out by the texts of their keys have a foreseen shape exactly if the
`default` among them has one. -/
theorem isForeseenOptions_record :
    (Value.record fields).IsForeseenOptions ↔
      ∀ f ∈ fields, f.1 = "default" → f.2.IsForeseenDefault := by
  rw [Value.IsForeseenOptions, Value.entries?_record, Option.getD_some, textEntries,
    List.forall_mem_map]
  rfl

/-- The settings that are taken of a mapping have a foreseen shape, if its own have. -/
theorem isForeseenOptions_mappingOf {options : Value} (h : options.IsForeseenOptions)
    (hfields : Parameters.mappingOf name options = .ok (textEntries fields)) :
    ∀ f ∈ fields, f.1 = "default" → f.2.IsForeseenDefault := by
  intro f hf hdefault
  obtain ⟨e, he, rfl⟩ := (Parameters.mem_of_mappingOf hfields).2 f hf
  exact h e he hdefault

/-- A record keeps a foreseen shape when settings are changed, if those that are left or new have a
foreseen default. -/
theorem keepsForeseen_resets {f : List (String × Value) → List (String × Value)}
    (hf : ∀ fields, (∀ p ∈ fields, p.1 = "default" → p.2.IsForeseenDefault) →
      ∀ p ∈ f fields, p.1 = "default" → p.2.IsForeseenDefault) :
    KeepsForeseen (Resets f) := by
  rintro key r _ ⟨v, fields, hget, ⟨o, ho, hfields⟩, rfl⟩ hr
  obtain ⟨es, hes⟩ := Value.exists_entries?_of_get ho
  have hv := hr _ (Entries.mem_of_get? hget)
  -- The settings that are there are the ones the attribute was foreseen with.
  have hoptions : o.IsForeseenOptions := by
    cases hv with
    | other _ h => cases h.symm.trans hes
    | mapping _ _ _ _ hoptions _ _ =>
      cases Except.ok.inj ho
      exact hoptions
  refine isForeseen_put hr (hv.withOptions (Value.isMapping_of_entries? hes) ?_ rfl)
  exact isForeseenOptions_record.mpr (hf fields (isForeseenOptions_mappingOf hoptions hfields))

/-- A record keeps a foreseen shape when settings are altered by such of a foreseen shape. -/
theorem keepsForeseen_alters (h : (ps.optional "options").IsForeseenOptions) :
    KeepsForeseen (Alters ps) := by
  rintro key r r' ⟨given, changed, hgiven, hchanged, hresets⟩
  rw [Parameters.optional_of_required hgiven] at h
  refine keepsForeseen_resets (fun fields hfields p hp => ?_) key r r' hresets
  rcases Entries.mem_putAll hp with hp | hp
  · exact hfields p hp
  · exact isForeseenOptions_mappingOf h hchanged p hp

/-- A record keeps a foreseen shape when a setting of one attribute is taken away (`Unsets`). -/
theorem keepsForeseen_unsets : KeepsForeseen (Unsets ps) := by
  rintro key r r' ⟨option, -, hresets⟩
  exact keepsForeseen_resets (fun fields hfields p hp => hfields p (Entries.mem_of_mem_remove hp))
    key r r' hresets

/-- The attributes and settings that the parameters of an operation hold have a foreseen shape. -/
def GivesForeseen (ps : Parameters) : Operation → Prop
  | createCollection => ∀ e ∈ (ps.optional "schema").entries?.getD [], e.2.IsForeseen
  | addAttribute => (ps.optional "attribute").IsForeseen
  | alterAttributeOption => (ps.optional "options").IsForeseenOptions
  | _ => True

/-- The change that an operation makes to a record at the end of a path keeps its shape foreseen. -/
theorem keepsForeseen_edits {op : Operation} (hgives : op.GivesForeseen ps) :
    KeepsForeseen (op.Edits ps) := by
  cases op with
  | addAttribute => exact keepsForeseen_adds hgives
  | dropAttribute => exact keepsForeseen_drops
  | alterAttributeOption => exact keepsForeseen_alters hgives
  | dropAttributeOption => exact keepsForeseen_unsets
  | setAttributeOptional => exact keepsForeseen_marks
  | _ => exact fun _ _ _ h => h.elim

/-- An operation that succeeds keeps the shape of all records in a state foreseen. -/
theorem isForeseen_of_leads {op : Operation} (hgives : op.GivesForeseen ps)
    (h : op.Leads ps w w') (hw : EachRecord WorkingRecord.IsForeseen w) :
    EachRecord WorkingRecord.IsForeseen w' := by
  refine Leads.eachRecord ?_ ?_ h hw
  · rintro rfl c hc
    exact isForeseen_mappingOf hgives hc.properties
  · exact fun _ _ _ hchanged => hchanged.isForeseen (keepsForeseen_edits hgives)

end Operation

/-! ## Reading states -/

/-- Collections whose records have a foreseen shape are read or refused. -/
theorem isAnnounced_collections {cs : List (String × WorkingCollection)}
    (h : ∀ c ∈ cs, c.2.record.IsForeseen) (done : List (String × Collection)) :
    IsAnnounced (collectionsOfEntries
      (textEntries (Entries.mapValues WorkingCollection.toValue cs)) done) := by
  -- The reader carries the collections that it has read, which play no part in whether it is
  -- announced.
  induction cs generalizing done with
  | nil => exact isAnnounced_ok done
  | cons c cs ih =>
    refine IsAnnounced.bind ?_ fun d _ => ih (fun d hd => h d (List.mem_cons_of_mem c hd)) _
    rw [c.2.read_eq]
    refine IsAnnounced.bind ?_ fun tree _ => isAnnounced_ok _
    refine (isAnnounced_propertiesOfPart rfl fun e he => ?_).bind fun ps _ => ?_
    · obtain ⟨p, hp, rfl⟩ := List.mem_map.mp he
      exact isAnnounced_attributeOfPart (h c List.mem_cons_self p hp)
    · exact (isAnnounced_optionalKeys (Value.isLoopable_list _)).bind fun _ _ => isAnnounced_ok _

/-! ## Safe changes -/

namespace Change

variable {ε α β : Type} {good : Value → Prop} {change : Change ε α} {f : α → Change ε β}

/-- On a good value a change is announced, and where it succeeds it leaves a good value. What it
leaves where it fails does not matter, since the run ends there. -/
def IsSafeOn (good : Value → Prop) (change : Change ε α) : Prop :=
  ∀ v, good v → IsAnnounced (change.runOn v).1 ∧
    ∀ a, (change.runOn v).1 = .ok a → good (change.runOn v).2

/-- What has an announced outcome and does not change the value is safe on every value. -/
theorem isSafeOn_lift {x : Outcome ε α} (h : IsAnnounced x) :
    IsSafeOn good (liftM x : Change ε α) :=
  fun _ hv => ⟨h, fun _ _ => hv⟩

/-- A sequence of safe changes is safe, since the second one starts from a good value. -/
theorem IsSafeOn.bind (h : IsSafeOn good change)
    (hf : ∀ a v, (change.runOn v).1 = .ok a → IsSafeOn good (f a)) :
    IsSafeOn good (change >>= f) := by
  intro v hv
  obtain ⟨hannounced, hgood⟩ := h v hv
  have hf := fun a => hf a v
  rw [runOn_bind]
  generalize change.runOn v = r at hannounced hgood hf
  obtain ⟨result, u⟩ := r
  cases result with
  | error failure =>
    refine ⟨fun fault heq => hannounced fault ?_, fun b hb => by cases hb⟩
    exact congrArg Except.error (Except.error.inj heq)
  | ok a => exact hf a rfl u (hgood a rfl)

/-- Seen as other errors, the errors of a safe change are still announced. -/
theorem IsSafeOn.seenAs {δ : Type} (h : IsSafeOn good change) (g : ε → δ) :
    IsSafeOn good (change.seenAs g) := by
  intro v hv
  obtain ⟨hannounced, hgood⟩ := h v hv
  rw [Migration.runOn_seenAs]
  exact ⟨hannounced.seenAs g, fun a ha => hgood a (Outcome.seenAs_eq_ok.mp ha)⟩

/-- If the change for each of several values is safe, so is the one that makes all of them in order
with `forM`. -/
theorem isSafeOn_forM {g : Value → Change ε PUnit} {vs : List Value}
    (h : ∀ v ∈ vs, IsSafeOn good (g v)) : IsSafeOn good (vs.forM g) := by
  induction vs with
  | nil => exact isSafeOn_lift (isAnnounced_ok _)
  | cons v vs ih =>
    exact (h v List.mem_cons_self).bind fun _ _ _ =>
      ih fun w hw => h w (List.mem_cons_of_mem v hw)

end Change

namespace Migration

open Operation (EachRecord)

variable {ms : List Value} {m : Value}

/-- A working state whose records have a foreseen shape is read as a schema or refused. -/
theorem isAnnounced_schemaOf {w : Working} (h : EachRecord WorkingRecord.IsForeseen w) :
    IsAnnounced (schemaOf w.toValue) := by
  refine IsAnnounced.seenAs ?_ _
  rw [w.read_eq]
  exact (isAnnounced_collections h []).bind fun _ _ => isAnnounced_ok _

/-! ## Runs -/

/-- The value is that of a `Working` state that is sound and whose records all have a foreseen
shape. This is the invariant of a whole run. -/
def IsForeseenState (v : Value) : Prop :=
  ∃ w : Working, w.IsSound ∧ EachRecord WorkingRecord.IsForeseen w ∧ v = w.toValue

/-- All that a step is given has a foreseen shape, whatever operation it denotes. -/
def GivesForeseenly (step : Value) : Prop := ∀ op ps, Denotes step op ps → op.GivesForeseen ps

/-- A migration whose version is no infinite number, whose steps are in what a loop may run over,
and that gives its steps what has a foreseen shape. -/
structure IsForeseen (m : Value) : Prop where
  /-- The version. -/
  version : ∀ es, m.entries? = some es → ∀ negative,
    Value.field? "version" es ≠ some (.float (.infinite negative))
  /-- The list of steps. -/
  up : ∀ up, m.get "up" = .ok up → up.IsLoopable
  /-- The steps. -/
  steps : ∀ up steps, m.get "up" = .ok up → (up.orElse (.list [])).elements = .ok steps →
    ∀ step ∈ steps, GivesForeseenly step

/-- What has a version is a mapping, since `versionOf` refuses everything else. -/
theorem exists_entries?_of_versionOf {n : ℤ} (h : versionOf m = .ok n) :
    ∃ es, m.entries? = some es := by
  unfold versionOf at h
  split at h
  · exact ⟨_, ‹_›⟩
  · cases h

/-- A version that is no infinite number is read or refused; `toInt` has no other way to break
down. -/
theorem isAnnounced_versionOf (h : IsForeseen m) : IsAnnounced (versionOf m) := by
  unfold versionOf
  split
  · rename_i es hes
    split
    · exact isAnnounced_refuse _
    · rename_i version hversion
      split
      · exact isAnnounced_ok _
      -- An infinite version is what the reader does not catch, and it is not foreseen.
      · rename_i hrange
        obtain ⟨negative, rfl⟩ := Value.eq_infinite_of_toInt hrange
        exact absurd hversion (h.version es hes negative)
      · exact isAnnounced_refuse _
  · exact isAnnounced_refuse _

/-- A step that is given what has a foreseen shape is safe on states of such a shape. -/
theorem isSafeOn_runStep {step : Value} (h : GivesForeseenly step) :
    Change.IsSafeOn IsForeseenState (runStep step) := by
  rintro _ ⟨w, hw, hforeseen, rfl⟩
  obtain ⟨w', hrun, hw', horderly, hleads⟩ := does_runStep step w hw
  refine ⟨?_, fun a ha => ?_⟩
  · intro fault heq
    rw [heq] at horderly
    exact horderly
  · obtain ⟨op, ps, hdenotes, hleads⟩ := hleads a ha
    exact ⟨w', hw', Operation.isForeseen_of_leads (h op ps hdenotes) hleads hforeseen, hrun⟩

/-- A migration of a foreseen shape is safe on states of such a shape, by `isSafeOn_forM` over its
steps. -/
theorem isSafeOn_apply (h : IsForeseen m) : Change.IsSafeOn IsForeseenState (apply m) := by
  unfold apply
  -- A migration with a version is a mapping, so its steps can be looked up.
  refine (Change.isSafeOn_lift (isAnnounced_versionOf h)).bind fun version v hversion => ?_
  obtain ⟨es, hes⟩ := exists_entries?_of_versionOf hversion
  have hup := Value.get_of_entries? "up" hes
  obtain ⟨steps, hsteps⟩ := (h.up _ hup).exists_elements (.list []) rfl
  rw [hup]
  refine (Change.isSafeOn_lift (isAnnounced_ok _)).bind fun up v hup' => ?_
  cases hup'
  rw [hsteps]
  refine (Change.isSafeOn_lift (isAnnounced_ok _)).bind fun steps' v hsteps' => ?_
  cases hsteps'
  refine (Change.isSafeOn_forM fun step hstep => ?_).bind fun _ _ _ => ?_
  · exact (isSafeOn_runStep (h.steps _ _ hup hsteps step hstep)).seenAs _
  -- The version that is left in the state is a number, whatever it was before.
  · rintro _ ⟨w, hw, hforeseen, rfl⟩
    rw [runOn_writeVersion]
    exact ⟨isAnnounced_ok _, fun _ _ => ⟨{ w with version := version }, hw, hforeseen, rfl⟩⟩

/-- The state before all migrations, `emptyState`, has a foreseen shape. -/
theorem isForeseenState_emptyState : IsForeseenState emptyState := by
  have hsound : (⟨0, []⟩ : Working).IsSound := ⟨List.nodup_nil, fun _ h => by cases h⟩
  have hforeseen : EachRecord WorkingRecord.IsForeseen ⟨0, []⟩ := fun _ h => by cases h
  exact ⟨⟨0, []⟩, hsound, hforeseen, rfl⟩

/-- The migrations that `inOrder` gives are among the given ones. -/
theorem mem_of_inOrder {ordered : List Value} (h : inOrder ms = .ok ordered) :
    ∀ m ∈ ordered, m ∈ ms := by
  intro m hm
  obtain ⟨versions, -, h⟩ := Outcome.bind_eq_ok.mp h
  cases h
  obtain ⟨p, hp, rfl⟩ := List.mem_map.mp hm
  exact (List.of_mem_zip ((List.mergeSort_perm _ _).mem_iff.mp hp)).2

/-- Migrations of a foreseen shape are resolved or refused: `resolve` never breaks down on them. -/
theorem isAnnounced_resolve (h : ∀ m ∈ ms, IsForeseen m) : IsAnnounced (resolve (.list ms)) := by
  unfold resolve
  split
  · show IsAnnounced (replay ms)
    unfold replay
    refine IsAnnounced.bind ?_ fun ordered hordered => ?_
    · exact (Outcome.isAnnounced_mapM fun m hm => isAnnounced_versionOf (h m hm)).bind
        fun _ _ => isAnnounced_ok _
    -- Each migration keeps the state foreseen or fails announced, and so does the run of all in
    -- order.
    · have hsafe : Change.IsSafeOn IsForeseenState
          (ordered.forM apply : Change MigrationError PUnit) :=
        Change.isSafeOn_forM fun m hm => isSafeOn_apply (h m (mem_of_inOrder hordered m hm))
      obtain ⟨hannounced, hgood⟩ := hsafe emptyState isForeseenState_emptyState
      refine hannounced.bind fun a ha => ?_
      obtain ⟨w, -, hforeseen, hw⟩ := hgood a ha
      have hschema := isAnnounced_schemaOf hforeseen
      rw [← hw] at hschema
      exact hschema
  · exact isAnnounced_ok none

/-- Migrations of a foreseen shape lead to a schema, or to none, or to a `MigrationError`, as
section 7 of the specification says of all. -/
theorem resolve_eq_ok_or_refuse (h : ∀ m ∈ ms, IsForeseen m) :
    (∃ schema, resolve (.list ms) = .ok schema) ∨
      ∃ e : MigrationError, resolve (.list ms) = refuse e :=
  (isAnnounced_resolve h).cases

/-- A migration to version 1 that makes a collection of notes with a title. -/
def titledNotes (title : Value) : Value :=
  oneStep (.int 1) (.list [.str "create_collection",
    .record [("name", .str "notes"), ("schema", .record [("title", title)])]])

/-- The title is a record with an author, which is optional, and with a date, whose default is a
call with an argument. -/
theorem resolve_eq_ok_or_refuse_titledNotes :
    let call : Value := .record [("func", .str "now"), ("args", .list [.int 0])]
    let date : Value := .record [("type", .str "date"), ("options", .record [("default", call)])]
    let title : Value := .record [("type", .str "record"), ("optional", .list [.str "author"]),
      ("properties", .record [("author", .record [("type", .str "string")]), ("date", date)])]
    (∀ m ∈ [titledNotes title], IsForeseen m) ∧
      ((∃ schema, resolve (.list [titledNotes title]) = .ok schema) ∨
        ∃ e : MigrationError, resolve (.list [titledNotes title]) = refuse e) := by
  intro call date title
  have hauthor : (Value.record [("type", .str "string")]).IsForeseen :=
    .mapping (List.forall_mem_singleton.mpr rfl) nofun nofun nofun nofun nofun nofun
  have hdate : date.IsForeseen := by
    refine .mapping ?_ nofun nofun nofun ?_ nofun nofun
    · exact List.forall_mem_cons.mpr ⟨rfl, List.forall_mem_singleton.mpr rfl⟩
    · refine List.forall_mem_singleton.mpr fun _ call name hcall _ => ?_
      cases hcall
      exact Value.isLoopable_list _
  have htitle : title.IsForeseen := by
    refine .mapping ?_ ?_ ?_ nofun nofun ?_ nofun
    · exact List.forall_mem_cons.mpr ⟨rfl, List.forall_mem_cons.mpr
        ⟨rfl, List.forall_mem_singleton.mpr rfl⟩⟩
    · exact fun _ => Value.isLoopable_list _
    · exact fun _ => rfl
    · exact fun _ => List.forall_mem_cons.mpr ⟨hauthor, List.forall_mem_singleton.mpr hdate⟩
  -- What a step may carry is asked of the operation that it denotes, and it denotes one only.
  have hforeseen : ∀ m ∈ [titledNotes title], IsForeseen m := by
    refine List.forall_mem_singleton.mpr ⟨?_, ?_, ?_⟩
    · rintro es hes negative h
      cases hes
      cases h
    · rintro up hup
      cases hup
      exact Value.isLoopable_list _
    · rintro up steps hup hsteps step hstep op ps hdenotes
      cases hup
      cases hsteps
      cases List.mem_singleton.mp hstep
      obtain ⟨rfl, rfl⟩ := hdenotes.unique ⟨_, _, "create_collection", rfl, rfl, rfl⟩
      exact List.forall_mem_singleton.mpr htitle
  exact ⟨hforeseen, resolve_eq_ok_or_refuse hforeseen⟩

/-- The state that `create_collection` makes of the notes with one attribute, a title of any
value. -/
def notesState (title : Value) : Working := ⟨1, [("notes", ⟨⟨[("title", title)], []⟩, none⟩)]⟩

/-- Where reading the title of the notes breaks down, so does the replay. -/
theorem resolve_titledNotes_of_broken {title : Value} {fault : Fault}
    (h : attributeOfPart [] 0 (some "title") title = .error (.broken fault)) :
    resolve (.list [titledNotes title]) = .error (.broken fault) := by
  have hordered : inOrder [titledNotes title] = .ok [titledNotes title] := by
    cbv
  have hstate : ([titledNotes title].forM apply : Change MigrationError Unit).runOn emptyState
      = (.ok (), (notesState title).toValue) := by
    cbv
  have hproperties : propertiesOfPart [] 0 (.record [("title", title)])
      = .error (.broken fault) := by
    -- The key has to be written as its text before `h` is found.
    rw [Value.record, propertiesOfPart, List.map_singleton, propertiesOfEntries]
    dsimp only [Scalar.text]
    rw [h]
    rfl
  have hcollections : collectionsOfEntries (textEntries (Entries.mapValues
      WorkingCollection.toValue (notesState title).collections)) [] = .error (.broken fault) := by
    show (Collection.ofValue _ >>= _) = _
    rw [WorkingCollection.read_eq, AttributeTree.ofValues]
    dsimp only
    rw [hproperties]
    rfl
  have hresolve : resolve (.list [titledNotes title]) = replay [titledNotes title] := rfl
  rw [hresolve, replay, hordered, Outcome.ok_bind, hstate]
  dsimp only
  rw [Outcome.ok_bind, schemaOf, Working.read_eq, hcollections]
  rfl

/-- Migrations of an unforeseen shape break down: a version is an infinite number, or steps,
optional keys or the arguments of a default are a number, or a cardinality is a list, or a record is
among its own attributes. -/
theorem resolve_unforeseen :
    let knot : Value := .knot 0 [.mapping [(.str "type", .str "record"),
      (.str "properties", .link 1 true)], .mapping [(.str "title", .link 0 true)]]
    let call : Value := .record [("func", .str "now"), ("args", .int 5)]
    let query : Value := .record [("collectionName", .str "notes")]
    resolve (.list [.record [("version", .float (.infinite false))]])
        = .error (.broken .outOfRange) ∧
      resolve (.list [.record [("version", .int 1), ("up", .int 5)]])
        = .error (.broken .wrongKind) ∧
      resolve (.list [titledNotes (.record [("type", .str "record"), ("optional", .int 5)])])
        = .error (.broken .wrongKind) ∧
      resolve (.list [titledNotes (.record [("type", .str "date"),
        ("options", .record [("default", call)])])]) = .error (.broken .wrongKind) ∧
      resolve (.list [titledNotes (.record [("type", .str "query"), ("query", query),
        ("cardinality", .list [])])]) = .error (.broken .wrongKind) ∧
      resolve (.list [titledNotes knot]) = .error (.broken .endless) := by
  intro knot call query
  refine ⟨rfl, ?_, ?_, ?_, ?_, ?_⟩
  · cbv
  · exact resolve_titledNotes_of_broken (by cbv)
  · exact resolve_titledNotes_of_broken (by cbv)
  · exact resolve_titledNotes_of_broken (by cbv)
  · exact resolve_titledNotes_of_broken (by cbv)

end Migration

end SchemaForge
