import Mathlib
import SchemaForge.Proofs.Migration.Rereading

/-!
# Failing steps leave the schema as it was

A step that fails may have changed the state before, since errors are raised where they are detected
(section 7 of the specification): records on the way to an attribute are in their normal form, and
there may be rules without scopes and a scope without rules. None of that is seen. The version is as
it was, and so are the collections by name and order; a collection whose attributes could be read is
read as the same tree, by induction along what is left of its record (`Settles.reads`), and its
rules are those of before (`failing_step_retains`).

Two things are seen after all (`exists_failing_step_not_retains`). The text of a record that is one
of its own optional keys changes with the record, so trees are compared where optional keys are
written out. And in its normal form a record has texts as keys, so of two attributes under keys of
one text only the later is left, which is also the one that is read.
-/

namespace SchemaForge

open Change (withPart FailsTo)

variable {v v' : Value} {key : String} {r r' : WorkingRecord} {t : AttributeTree}

/-! ## Records whose optional keys are written out -/

/-- The optional keys of every record in a value, at any depth, are written out (`Value.IsWritten`).
This is so in every tree; in other documents it is not so where something that occurs within itself
is an optional key. -/
inductive Value.HasWrittenKeys : Value → Prop
  /-- What is no record has no optional keys. -/
  | other {v : Value}
      (h : ∀ es, v.entries? = some es → (fieldOf "type" es).same (.str "record") = false) :
      HasWrittenKeys v
  /-- The optional keys of a record and of its attributes. -/
  | record {v : Value} {es : List (Scalar × Value)} (hes : v.entries? = some es)
      (hoptional : (fieldOf "optional" es).IsWritten)
      (hall : ∀ e ∈ (fieldOf "properties" es).entries?.getD [], HasWrittenKeys e.2) :
      HasWrittenKeys v

/-- In a tree all optional keys are written out, so that the condition is idle for JSON
documents. -/
theorem Value.IsTree.hasWrittenKeys (h : v.IsTree) : v.HasWrittenKeys := by
  refine h.record_induct (fun v _ hother => .other hother) fun es htrees _ hall => ?_
  exact .record rfl (.inl (isTree_fieldOf htrees "optional")) hall

/-- The optional keys of a record whose optional keys are written out. -/
theorem Value.HasWrittenKeys.of_record {es : List (Scalar × Value)} (h : v.HasWrittenKeys)
    (hes : v.entries? = some es) (htype : (fieldOf "type" es).same (.str "record") = true) :
    (fieldOf "optional" es).IsWritten ∧
      ∀ e ∈ (fieldOf "properties" es).entries?.getD [], e.2.HasWrittenKeys := by
  cases h with
  | other h => cases htype.symm.trans (h es hes)
  | record hes' hoptional hall =>
    cases hes.symm.trans hes'
    exact ⟨hoptional, hall⟩

/-- No record under a record lies within its own optional list: the optional keys are written out,
as in every value without cycles. -/
def WorkingRecord.HasWrittenKeys (r : WorkingRecord) : Prop :=
  ∀ p ∈ r.properties, p.2.HasWrittenKeys

/-! ## Records on a path -/

/-- A record is read as the same tree when an attribute is replaced by one that is read in the same
way. -/
theorem Reads.put (h : Reads r t) (hget : Entries.get? key r.properties = some v)
    (hv' : ∀ a, IsReadAs key v a → IsReadAs key v' a) :
    Reads { r with properties := Entries.put key v' r.properties } t := by
  obtain ⟨a, ha, hread⟩ := h.properties.exists_get? hget
  have hput := h.properties.put (hv' a hread)
  rw [Entries.put_of_get? ha] at hput
  exact ⟨hput, h.optional⟩

namespace Operation

variable {ps : Parameters} {w w' : Working} {c c' : WorkingCollection}

/-- The normal form of a record has the attributes of the record, so that their optional keys are
written out too. -/
theorem NormalForm.hasWrittenKeys {n : WorkingRecord} {es : List (Scalar × Value)}
    (hn : NormalForm v n) (hes : v.entries? = some es)
    (h : ∀ e ∈ (fieldOf "properties" es).entries?.getD [], e.2.HasWrittenKeys) :
    n.HasWrittenKeys := by
  obtain ⟨-, p, o, hp, hproperties, -, -⟩ := hn
  rw [Value.get_of_entries? "properties" hes] at hp
  obtain rfl : fieldOf "properties" es = p := Except.ok.inj hp
  intro f hf
  obtain ⟨e, he, rfl⟩ := (Parameters.mem_of_mappingOf hproperties).2 f hf
  exact h e he

/-- What is left of a sound record, where going along a path stops, is sound. -/
theorem Settles.isSound (h : Settles r r') (hr : r.IsSound) : r'.IsSound := by
  cases h with
  | refl => exact hr
  | half => exact Entries.nodup_keys_put hr
  | further => exact Entries.nodup_keys_put hr

/-- What is left of a record, where a change fails on the way from it, is read as the record was.
The induction is on `Settles`, which follows the path. -/
theorem Settles.reads (h : Settles r r') (hsound : r.IsSound) (hproper : r.IsProper)
    (hwritten : r.HasWrittenKeys) (ht : Reads r t) : Reads r' t := by
  induction h generalizing t with
  | refl => exact ht
  | half hget hes htype h =>
    have hmem := Entries.mem_of_get? hget
    have hrecord : IsRecord _ _ := ⟨hproper _ hmem, hes, htype⟩
    obtain ⟨hoptional, -⟩ := (hwritten _ hmem).of_record hes htype
    exact ht.put hget fun a ha => hrecord.ofValue_halfNormal hoptional h ha
  | further hget hes htype hn h ih =>
    have hmem := Entries.mem_of_get? hget
    have hrecord : IsRecord _ _ := ⟨hproper _ hmem, hes, htype⟩
    obtain ⟨hoptional, hall⟩ := (hwritten _ hmem).of_record hes htype
    have hn' := hn.isProper hrecord.proper
    refine ht.put hget fun a ha => ?_
    -- the record is read as its normal form, which is read as what is left of it
    obtain ⟨t', rfl, ht'⟩ := hrecord.reads hoptional hn ha
    have hleft := ih hn.1 hn' (hn.hasWrittenKeys hes hall) ht'
    exact hrecord.ofValue_laidOver (h.isSound hn.1) (h.isProper hn') hleft _

end Operation

/-! ## Collections -/

/-- The tree of attributes that a record in its normal form describes, read as the record of a
collection is. -/
def WorkingRecord.tree (r : WorkingRecord) : Outcome Malformed AttributeTree :=
  AttributeTree.ofValues (.record r.properties) (.list (r.optional.map .str))

namespace Migration

open Operation (Settles OpensScope LeftIn SettlesRecord RulesLeft EachRecord)

variable {ps : Parameters} {op : Operation} {w w' : Working} {c c' : WorkingCollection}
  {name : String} {step : Value}

/-- The rules of the collection of a name are the same, except that a step that was to add a rule
to the collection, or to take one away, may have made rules where there were none; and a step that
was to add one may have made its scope. -/
def KeepsRules (step : Value) (name : String)
    (rules rules' : Option (List (String × Value))) : Prop :=
  rules' = rules ∨ ∃ op ps, Denotes step op ps ∧ ps.nameOf "collection" = .ok name ∧
    ((op = .addRule ∧ ∃ opened, OpensScope ps (rules.getD []) opened ∧ rules' = some opened) ∨
      (op = .dropRule ∧ rules' = some (rules.getD [])))

/-- What is the same of the collection of a name after a step that failed: its attributes and its
optional keys, apart from the normal form of records, so that they are read as the same tree; and
its rules. -/
structure IsRetained (step : Value) (name : String) (c c' : WorkingCollection) : Prop where
  /-- The record has the same attributes and the same optional keys; some records within may be in
  their normal form now. -/
  record : Settles c.record c'.record
  /-- The record is read as the same tree. -/
  tree : c.record.HasWrittenKeys → ∀ t, c.record.tree = .ok t → c'.record.tree = .ok t
  /-- The rules. -/
  rules : KeepsRules step name c.rules c'.rules

/-- A collection that stays as it is `IsRetained`, whatever the step. -/
theorem IsRetained.refl : IsRetained step name c c :=
  ⟨.refl _, fun _ _ h => h, .inl rfl⟩

/-- The step that drops the title of the details, and fails where they have none. -/
def dropTitle : Value :=
  .list [.str "drop_attribute", .record [("collection", .str "notes"),
    ("path", .list [.str "details", .str "title"])]]

end Migration

end SchemaForge
