import Mathlib.Data.List.Perm.Basic
import Mathlib.Data.List.Nodup
import SchemaForge.Proofs.Migration.Success

/-!
# Steps on different collections

What an operation of section 6.1 of the specification does depends on the collection that its
parameters name, and on nothing else in the state; and it changes that collection only, if any
(`actsOn_run`). So steps on different collections have the same outcome in either order, and lead to
the same collections (`steps_commute`). The order of the collections may differ, since a new
collection goes to the end.
-/

namespace SchemaForge

open Change (withPart)

/-! ## Replacing entries -/

namespace Entries

variable {κ : Type u} {α : Type v} [BEq κ] [LawfulBEq κ] {key k : κ} {a : Option α}
  {es es' : List (κ × α)}

/-- The entries with something else under a key, or with nothing under it. -/
def replace (key : κ) (a : Option α) (es : List (κ × α)) : List (κ × α) :=
  match a with
  | some b => put key b es
  | none => remove key es

/-- What `replace` gives for a key is found under it, be it a value or nothing. -/
theorem get?_replace_self (h : (keys es).Nodup) : get? key (replace key a es) = a := by
  cases a with
  | some b => exact get?_put_self
  | none => exact get?_remove_self h

/-- Under every other key `replace` leaves what is found as it is. -/
theorem get?_replace_of_ne (h : k ≠ key) : get? k (replace key a es) = get? k es := by
  cases a with
  | some b => exact get?_put_of_ne h
  | none => exact get?_remove_of_ne h

/-- Keys that are distinct stay so, whether `replace` puts a value or takes it away. -/
theorem nodup_keys_replace (h : (keys es).Nodup) : (keys (replace key a es)).Nodup := by
  cases a with
  | some b => exact nodup_keys_put h
  | none => exact nodup_keys_remove h

omit [LawfulBEq κ] in
/-- To `remove` a key that has no entry changes nothing. -/
theorem remove_of_get?_eq_none (h : get? key es = none) : remove key es = es := by
  induction es with
  | nil => rfl
  | cons e es ih =>
    obtain ⟨k, b⟩ := e
    rw [get?] at h
    split at h
    · cases h
    · rename_i hk
      rw [remove, if_neg hk, ih h]

/-- Entries under distinct keys are the same up to order if `get?` finds the same under every
key. -/
theorem perm_of_get?_eq (h : (keys es).Nodup) (h' : (keys es').Nodup)
    (heq : ∀ k, get? k es = get? k es') : es.Perm es' := by
  have hmem : ∀ {fs : List (κ × α)}, (keys fs).Nodup → ∀ e, e ∈ fs ↔ get? e.1 fs = some e.2 :=
    fun hn _ => ⟨get?_of_mem hn, mem_of_get?⟩
  refine (List.perm_ext_iff_of_nodup h.of_map h'.of_map).mpr fun e => ?_
  rw [hmem h e, hmem h' e, heq]

/-- Entries may be replaced under two different keys in either order, up to the order of the
entries. -/
theorem perm_replace_replace {b : Option α} (h : (keys es).Nodup) (hne : k ≠ key) :
    (replace k b (replace key a es)).Perm (replace key a (replace k b es)) := by
  refine perm_of_get?_eq (nodup_keys_replace (nodup_keys_replace h))
    (nodup_keys_replace (nodup_keys_replace h)) fun j => ?_
  by_cases hj : j = k
  · subst hj
    rw [get?_replace_self (nodup_keys_replace h), get?_replace_of_ne hne, get?_replace_self h]
  by_cases hj' : j = key
  · subst hj'
    rw [get?_replace_of_ne hj, get?_replace_self h, get?_replace_self (nodup_keys_replace h)]
  · rw [get?_replace_of_ne hj, get?_replace_of_ne hj', get?_replace_of_ne hj',
      get?_replace_of_ne hj]

end Entries

/-! ## Changes of one collection -/

/-- A state with a version and collections, of which nothing else is known; they need not be
sound. -/
def stateOf (version : Value) (collections : List (String × Value)) : Value :=
  .record [("version", version), ("collections", .record collections)]

/-- A working state is `stateOf` its version and the values of its collections, so that steps can be
followed on the values. -/
theorem Working.toValue_eq_stateOf (w : Working) : w.toValue
    = stateOf (.int w.version) (Entries.mapValues WorkingCollection.toValue w.collections) := rfl

/-- A state is known by its version and its collections. -/
theorem stateOf_inj {version version' : Value} {cs cs' : List (String × Value)}
    (h : stateOf version cs = stateOf version' cs') : version = version' ∧ cs = cs' := by
  have hfields := textEntries.inj (Value.mapping.inj h)
  simp only [List.cons.injEq, Prod.mk.injEq, and_true, true_and] at hfields
  exact ⟨hfields.1, textEntries.inj (Value.mapping.inj hfields.2)⟩

namespace Change

variable {name : String} {change : Change Refusal Unit}

/-- A change of collections has an outcome that depends on the collection of one name only, and
replaces that one only. -/
def ActsAmong (name : String) (change : Change Refusal Unit) : Prop :=
  ∃ f : Option Value → Outcome Refusal Unit × Option Value, ∀ cs, (Entries.keys cs).Nodup →
    change.runOn (.record cs) = ((f (Entries.get? name cs)).1,
      .record (Entries.replace name (f (Entries.get? name cs)).2 cs))

/-- A change of a state has an outcome that depends on the collection of one name only, and replaces
that one only. Whatever the other collections are, it reads and writes none of them. -/
def ActsOn (name : String) (change : Change Refusal Unit) : Prop :=
  ∃ f : Option Value → Outcome Refusal Unit × Option Value, ∀ version cs,
    (Entries.keys cs).Nodup → change.runOn (stateOf version cs) = ((f (Entries.get? name cs)).1,
      stateOf version (Entries.replace name (f (Entries.get? name cs)).2 cs))

/-- A change that acts on one of the collections acts on one of those of the state. -/
theorem ActsAmong.actsOn (h : ActsAmong name change) :
    ActsOn name (.inItem "collections" change) := by
  obtain ⟨f, hf⟩ := h
  refine ⟨f, fun version cs hcs => ?_⟩
  have hpart : (liftM ((stateOf version cs).item "collections") : Outcome Refusal Value)
      = .ok (.record cs) := by
    rw [stateOf, Value.item_record rfl]
    rfl
  unfold inItem
  rw [runOn_within, hpart]
  dsimp only
  rw [hf cs hcs, stateOf, Value.withPart_record]
  rfl

/-- A change still acts on one collection if something comes first that does not look at the
state. -/
theorem ActsOn.lift_bind {α : Type} {x : Outcome Refusal α} {a : α} {g : α → Change Refusal Unit}
    (hx : x = .ok a) (h : ActsOn name (g a)) :
    ActsOn name ((liftM x : Change Refusal α) >>= g) := by
  rw [hx]
  exact h

end Change

open Change (ActsOn ActsAmong)

namespace Operation

variable {ps : Parameters} {name : String} {change : Change Refusal Unit}

/-- The function `collectionIn` depends on the collection of the name only. -/
theorem collectionIn_record (name : String) (cs : List (String × Value)) :
    collectionIn name (.record cs) = match Entries.get? name cs with
      | none => refuse (.noCollection name)
      | some v => if v.isNull then refuse (.noCollection name) else .ok v := by
  unfold collectionIn
  rw [Value.get_record]
  cases Entries.get? name cs <;> rfl

/-- A change of the collection of a name acts on what is under this name, and neither reads nor
writes the rest. -/
theorem actsOn_inCollection : ActsOn name (inCollection name change) := by
  -- What becomes of the one collection is given as a function of it alone, be it there or not.
  refine Change.ActsAmong.actsOn ⟨fun
    | none => (refuse (.noCollection name), none)
    | some v => if v.isNull then (refuse (.noCollection name), some v)
      else ((change.runOn v).1, some (change.runOn v).2), fun cs _ => ?_⟩
  rw [Change.runOn_within, collectionIn_record]
  cases hget : Entries.get? name cs with
  | none =>
    dsimp only
    rw [Entries.replace, Entries.remove_of_get?_eq_none hget]
    rfl
  | some v =>
    dsimp only
    cases hnull : v.isNull with
    | true =>
      rw [if_pos rfl, if_pos rfl]
      dsimp only
      rw [Entries.replace, Entries.put_of_get? hget]
      rfl
    | false =>
      rw [if_neg Bool.false_ne_true, if_neg Bool.false_ne_true]
      dsimp only
      rw [Value.withPart_record, Entries.replace]

/-- A change of the record that the parameters lead to acts on the collection that they name. -/
theorem actsOn_locate {change : String → Change Refusal Unit}
    (hname : ps.nameOf "collection" = .ok name) : ActsOn name (locate ps change) :=
  Change.ActsOn.lift_bind hname actsOn_inCollection

/-- The collection that the parameters describe, or the refusal of them; the state is not looked
at. -/
def collectionOf (ps : Parameters) : Outcome Refusal Value := do
  let properties ← Parameters.mappingOf "schema" (ps.optional "schema")
  let optional ← Parameters.keysOf "optional" (ps.optional "optional")
  let schema := ("schema", recordOf properties optional)
  if (ps.optional "rules").isNull then
    return .record [schema]
  else
    let rules ← Parameters.mappingOf "rules" (ps.optional "rules")
    return .record [schema, ("rules", .mapping rules)]

/-- The operation `runCreateCollection` makes the collection that `collectionOf` gives and puts it
at the end, or is refused. -/
theorem runOn_makeCollection (cs : List (String × Value)) :
    (do
      let properties ← Parameters.mappingOf "schema" (ps.optional "schema")
      let optional ← Parameters.keysOf "optional" (ps.optional "optional")
      let schema := ("schema", recordOf properties optional)
      if (ps.optional "rules").isNull then
        .write name (.record [schema])
      else
        let rules ← Parameters.mappingOf "rules" (ps.optional "rules")
        .write name (.record [schema, ("rules", .mapping rules)]) : Change Refusal Unit).runOn
          (.record cs) = match collectionOf ps with
      | .ok v => (.ok (), .record (Entries.put name v cs))
      | .error failure => (.error failure, .record cs) := by
  -- The parameters are read first, in the same order, and this leaves the collections as they are.
  unfold collectionOf
  cases Parameters.mappingOf "schema" (ps.optional "schema") with
  | error failure => rfl
  | ok properties =>
    cases Parameters.keysOf "optional" (ps.optional "optional") with
    | error failure => rfl
    | ok optional =>
      rw [Change.runOn_bind, Change.runOn_lift]
      dsimp only
      rw [Change.runOn_bind, Change.runOn_lift]
      dsimp only
      cases (ps.optional "rules").isNull with
      | true => exact Change.runOn_write_record
      | false =>
        cases Parameters.mappingOf "rules" (ps.optional "rules") with
        | error failure => rfl
        | ok rules => exact Change.runOn_write_record

/-- What making a collection does to what is under its name: where nothing is, the collection of the
parameters is put (`collectionOf`), and where something is, this is refused. -/
def making (ps : Parameters) (name : String) : Option Value → Outcome Refusal Unit × Option Value
  | some v => (refuse (.collectionExists name), some v)
  | none =>
    match collectionOf ps with
    | .ok v => (.ok (), some v)
    | .error failure => (.error failure, none)

/-- What taking a collection away does to what is under its name: it goes, and it is refused where
nothing is. -/
def dropping (name : String) : Option Value → Outcome Refusal Unit × Option Value
  | none => (refuse (.noCollection name), none)
  | some v => if v.isNull then (refuse (.noCollection name), some v) else (.ok (), none)

/-- The operation `runCreateCollection` acts on the collection of the name that it makes. -/
theorem actsOn_createCollection (hname : ps.nameOf "name" = .ok name) :
    ActsOn name (runCreateCollection ps) := by
  refine Change.ActsOn.lift_bind hname
    (Change.ActsAmong.actsOn ⟨making ps name, fun cs _ => ?_⟩)
  rw [Change.runOn_bind, Change.runOn_holds_record]
  dsimp only
  rw [Entries.has]
  -- A collection that is there is left as it is, and the step is refused.
  cases hget : Entries.get? name cs with
  | some v =>
    rw [making, Entries.replace, Entries.put_of_get? hget]
    rfl
  | none =>
    refine (runOn_makeCollection cs).trans ?_
    rw [making]
    cases collectionOf ps with
    | ok v => rfl
    | error failure =>
      dsimp only
      rw [Entries.replace, Entries.remove_of_get?_eq_none hget]

/-- The operation `runDropCollection` acts on the collection of the name that it takes away. -/
theorem actsOn_dropCollection (hname : ps.nameOf "name" = .ok name) :
    ActsOn name (runDropCollection ps) := by
  refine Change.ActsOn.lift_bind hname
    (Change.ActsAmong.actsOn ⟨dropping name, fun cs _ => ?_⟩)
  -- What happens is decided by the value under the name.
  have hget : (get : Change Refusal Value).runOn (.record cs) = (.ok (.record cs), .record cs) :=
    rfl
  rw [Change.runOn_bind, hget]
  dsimp only
  rw [collectionIn_record, Change.runOn_bind, Change.runOn_lift]
  cases hfound : Entries.get? name cs with
  | none =>
    rw [dropping, Entries.replace, Entries.remove_of_get?_eq_none hfound]
    rfl
  | some v =>
    rw [dropping]
    dsimp only
    cases v.isNull with
    | true =>
      rw [if_pos rfl, if_pos rfl]
      dsimp only
      rw [Entries.replace, Entries.put_of_get? hfound]
      rfl
    | false =>
      rw [if_neg Bool.false_ne_true, if_neg Bool.false_ne_true]
      exact Change.runOn_replace (g := fun v => v.delete name)
        (Value.delete_record (has_of_get? hfound))

/-- The name of the collection that an operation acts on, as its parameters give it. -/
def targetOf (ps : Parameters) : Operation → Outcome Refusal String
  | createCollection => ps.nameOf "name"
  | dropCollection => ps.nameOf "name"
  | _ => ps.nameOf "collection"

/-- Every operation acts on the collection that its parameters name, and on no other. There is one
case for each kind of operation. -/
theorem actsOn_run {op : Operation} (h : op.targetOf ps = .ok name) : ActsOn name (op.run ps) := by
  cases op with
  | createCollection => exact actsOn_createCollection h
  | dropCollection => exact actsOn_dropCollection h
  | addAttribute => exact actsOn_locate h
  | dropAttribute => exact actsOn_locate h
  | alterAttributeOption => exact actsOn_locate h
  | dropAttributeOption => exact actsOn_locate h
  | setAttributeOptional => exact actsOn_locate h
  | addRule => exact .lift_bind h actsOn_inCollection
  | dropRule => exact .lift_bind h actsOn_inCollection

end Operation

/-! ## Steps -/

namespace Migration

open Operation (targetOf)

variable {step step₁ step₂ version v : Value} {op op₁ op₂ : Operation} {ps ps₁ ps₂ : Parameters}
  {name name₁ name₂ : String} {cs cs' : List (String × Value)} {n : ℤ}
  {outcome : Outcome Refusal Unit}

/-- The version of a state after a migration by one step: a new one if the step succeeds, and the
old one if it fails. -/
def versionAfter (n : ℤ) (v : Value) : Outcome Refusal Unit → Value
  | .ok _ => .int n
  | .error _ => v

/-- After two steps of one version the version of the state is the same in either order, whichever
of them fail. -/
theorem versionAfter_comm (n : ℤ) (v : Value) (x y : Outcome Refusal Unit) :
    versionAfter n (versionAfter n v x) y = versionAfter n (versionAfter n v y) x := by
  cases x <;> cases y <;> rfl

/-- A migration by one step does to the collections what the step does. -/
theorem runOn_apply_stateOf (hversion : version.toInt = .ok n)
    (h : (runStep step).runOn (stateOf v cs) = (outcome, stateOf v cs')) :
    (apply (oneStep version step)).runOn (stateOf v cs)
      = (Outcome.seenAs (⟨·, some n, none⟩) outcome, stateOf (versionAfter n v outcome) cs') := by
  rw [runOn_apply_oneStep hversion, Change.runOn_bind, runOn_seenAs, h]
  cases outcome with
  | error failure => cases failure <;> rfl
  | ok a => exact Change.runOn_write_record

/-- A migration to a version has an outcome that depends on the collection of one name, replaces
that one, and gives the state its version if it succeeds. -/
def MigratesOn (name : String) (n : ℤ) (f : Option Value → Outcome Refusal Unit × Option Value)
    (change : Change MigrationError Unit) : Prop :=
  ∀ v cs, (Entries.keys cs).Nodup → change.runOn (stateOf v cs)
    = (Outcome.seenAs (⟨·, some n, none⟩) (f (Entries.get? name cs)).1,
      stateOf (versionAfter n v (f (Entries.get? name cs)).1)
        (Entries.replace name (f (Entries.get? name cs)).2 cs))

/-- A migration by one step migrates on the collection that the step names. -/
theorem exists_migratesOn (hd : Denotes step op ps) (hname : op.targetOf ps = .ok name)
    (hversion : version.toInt = .ok n) :
    ∃ f, MigratesOn name n f (apply (oneStep version step)) := by
  obtain ⟨f, hf⟩ := Operation.actsOn_run hname
  refine ⟨f, fun v cs hcs => runOn_apply_stateOf hversion ?_⟩
  rw [runOn_runStep hd, hf v cs hcs]

/-- After a migration that acts on another collection, a migration has the outcome and the effect
that it has alone. -/
theorem MigratesOn.runOn_runOn {f₁ f₂ : Option Value → Outcome Refusal Unit × Option Value}
    {first second : Change MigrationError Unit} (h₁ : MigratesOn name₁ n f₁ first)
    (h₂ : MigratesOn name₂ n f₂ second) (hne : name₂ ≠ name₁) (hcs : (Entries.keys cs).Nodup) :
    second.runOn (first.runOn (stateOf v cs)).2
      = ((second.runOn (stateOf v cs)).1,
        stateOf (versionAfter n (versionAfter n v (f₁ (Entries.get? name₁ cs)).1)
          (f₂ (Entries.get? name₂ cs)).1)
          (Entries.replace name₂ (f₂ (Entries.get? name₂ cs)).2
            (Entries.replace name₁ (f₁ (Entries.get? name₁ cs)).2 cs))) := by
  rw [h₁ v cs hcs, h₂ v cs hcs]
  dsimp only
  rw [h₂ _ _ (Entries.nodup_keys_replace hcs), Entries.get?_replace_of_ne hne]

/-- Collections are the same up to order if their values are, since a collection is known by its
value. -/
theorem perm_of_mapValues {cs cs' : List (String × WorkingCollection)}
    (h : (Entries.mapValues WorkingCollection.toValue cs).Perm
      (Entries.mapValues WorkingCollection.toValue cs')) : cs.Perm cs' := by
  have hinjective : Function.Injective
      fun c : String × WorkingCollection => (c.1, c.2.toValue) := fun c d hcd =>
    Prod.ext (Prod.mk.inj hcd).1 (WorkingCollection.toValue_injective (Prod.mk.inj hcd).2)
  exact (List.map_perm_map_iff hinjective).mp h

/-- Steps on different collections are independent. In either order each of them has the outcome
that it has alone, an error with its text included, and both orders lead to the same version and to
the same collections, apart from the order of these. -/
theorem steps_commute {state : Value} (h : Reachable state) (hd₁ : Denotes step₁ op₁ ps₁)
    (hd₂ : Denotes step₂ op₂ ps₂) (hname₁ : op₁.targetOf ps₁ = .ok name₁)
    (hname₂ : op₂.targetOf ps₂ = .ok name₂) (hne : name₁ ≠ name₂) (version : Value) :
    let first := apply (oneStep version step₁)
    let second := apply (oneStep version step₂)
    (second.runOn (first.runOn state).2).1 = (second.runOn state).1 ∧
      (first.runOn (second.runOn state).2).1 = (first.runOn state).1 ∧
        ∃ w w' : Working, w.IsSound ∧ w'.IsSound ∧
          (second.runOn (first.runOn state).2).2 = w.toValue ∧
            (first.runOn (second.runOn state).2).2 = w'.toValue ∧
              w.version = w'.version ∧ w.collections.Perm w'.collections := by
  intro first second
  obtain ⟨w₀, hw₀, rfl⟩ := h.isWorking
  cases hversion : version.toInt with
  | error fault =>
    obtain ⟨failure, hfails⟩ := exists_failure_of_apply hversion
    have hfirst : ∀ state, first.runOn state = (.error failure, state) := hfails step₁
    have hsecond : ∀ state, second.runOn state = (.error failure, state) := hfails step₂
    simp only [hfirst, hsecond, true_and]
    exact ⟨w₀, w₀, hw₀, hw₀, rfl, rfl, rfl, .refl _⟩
  | ok n =>
    obtain ⟨f₁, hf₁⟩ := exists_migratesOn hd₁ hname₁ hversion
    obtain ⟨f₂, hf₂⟩ := exists_migratesOn hd₂ hname₂ hversion
    have hkeys : (Entries.keys (Entries.mapValues WorkingCollection.toValue
        w₀.collections)).Nodup := by
      rw [Entries.keys_mapValues]
      exact hw₀.names
    have h₁₂ := hf₁.runOn_runOn (v := .int w₀.version) hf₂ hne.symm hkeys
    have h₂₁ := hf₂.runOn_runOn (v := .int w₀.version) hf₁ hne hkeys
    rw [← Working.toValue_eq_stateOf] at h₁₂ h₂₁
    have hsound : IsSoundState w₀.toValue := ⟨w₀, hw₀, rfl⟩
    obtain ⟨w, hw, hstate⟩ := keepsSound_apply (oneStep version step₂) _
      (keepsSound_apply (oneStep version step₁) _ hsound)
    obtain ⟨w', hw', hstate'⟩ := keepsSound_apply (oneStep version step₁) _
      (keepsSound_apply (oneStep version step₂) _ hsound)
    refine ⟨(Prod.ext_iff.mp h₁₂).1, (Prod.ext_iff.mp h₂₁).1, w, w', hw, hw', hstate, hstate', ?_⟩
    -- both states are known: the same two collections are replaced in them, in either order
    rw [h₁₂, Working.toValue_eq_stateOf] at hstate
    rw [h₂₁, Working.toValue_eq_stateOf] at hstate'
    obtain ⟨hv, hcs⟩ := stateOf_inj hstate
    obtain ⟨hv', hcs'⟩ := stateOf_inj hstate'
    rw [versionAfter_comm, hv'] at hv
    refine ⟨(Scalar.int.inj (Value.scalar.inj hv)).symm, perm_of_mapValues ?_⟩
    rw [← hcs, ← hcs']
    exact Entries.perm_replace_replace hkeys hne.symm

/-- A step that makes a collection with details, a record of which nothing more is said. -/
def createDetailed (name : String) : Value :=
  .list [.str "create_collection", .record [("name", .str name),
    ("schema", .record [("details", .record [("type", .str "record")])])]]

/-- The state with two collections, the notes and the tasks, each of them with a record of
details. -/
def notesAndTasks : Value :=
  ((apply (oneStep (.int 1) (createDetailed "tasks"))).runOn
    ((apply (oneStep (.int 1) (createDetailed "notes"))).runOn emptyState).2).2

/-- The parameters of a step that adds an author to the details of the notes. -/
def addingAuthor : Parameters :=
  textEntries [("collection", .str "notes"), ("path", .list [.str "details", .str "author"]),
    ("attribute", .record [("type", .str "string")]), ("optional", .bool true)]

/-- The parameters of a step that drops the author of the details of the tasks. -/
def droppingAuthor : Parameters :=
  textEntries [("collection", .str "tasks"), ("path", .list [.str "details", .str "author"])]

/-- The details of the notes have an author, and those of the tasks have lists of attributes and of
optional keys. -/
def authoredNotes : Working :=
  ⟨1, [("notes", ⟨⟨[("details", .record [("type", .str "record"),
      ("properties", .record [("author", .record [("type", .str "string")])]),
      ("optional", .list [.str "author"])])], []⟩, none⟩),
    ("tasks", ⟨⟨[("details", .record [("type", .str "record"), ("properties", .record []),
      ("optional", .list [])])], []⟩, none⟩)]⟩

/-- The details of the notes get an author, and those of the tasks are to lose one that they do not
have: that step fails, and leaves the details in their normal form. Each of the two steps ends as it
would alone, and both orders lead to the same state. -/
theorem steps_commute_notesAndTasks :
    let adds := apply (oneStep (.int 1) (.list [.str "add_attribute", .mapping addingAuthor]))
    let drops := apply (oneStep (.int 1) (.list [.str "drop_attribute", .mapping droppingAuthor]))
    let missing := refuse ⟨.noAttribute "author", some 1, none⟩
    (adds.runOn notesAndTasks).1 = .ok () ∧ (drops.runOn notesAndTasks).1 = missing ∧
      drops.runOn (adds.runOn notesAndTasks).2 = (missing, authoredNotes.toValue) ∧
        adds.runOn (drops.runOn notesAndTasks).2 = (.ok (), authoredNotes.toValue) := by
  intro adds drops missing
  have hreachable : Reachable notesAndTasks := .apply _ (.apply _ .empty)
  have hadds : Denotes (.list [.str "add_attribute", .mapping addingAuthor]) .addAttribute
      addingAuthor := ⟨_, _, "add_attribute", rfl, rfl, rfl⟩
  have hdrops : Denotes (.list [.str "drop_attribute", .mapping droppingAuthor]) .dropAttribute
      droppingAuthor := ⟨_, _, "drop_attribute", rfl, rfl, rfl⟩
  have hadded : (adds.runOn notesAndTasks).1 = .ok () := rfl
  have hmissing : (drops.runOn notesAndTasks).1 = missing := rfl
  -- The outcome of each alone is known, and the theorem carries it over to its place behind the
  -- other.
  obtain ⟨hsecond, hfirst, w, w', -, -, hw, hw', -, -⟩ :=
    steps_commute hreachable hadds hdrops rfl rfl (by decide) (.int 1)
  obtain rfl : authoredNotes = w := Working.toValue_injective hw
  obtain rfl : authoredNotes = w' := Working.toValue_injective hw'
  refine ⟨hadded, hmissing, Prod.ext ?_ hw, Prod.ext ?_ hw'⟩
  · exact hsecond.trans hmissing
  · exact hfirst.trans hadded

end Migration

end SchemaForge
