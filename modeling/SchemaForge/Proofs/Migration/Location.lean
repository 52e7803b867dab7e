import SchemaForge.Proofs.Migration.State
import SchemaForge.Proofs.Outcome

/-!
# Ways into working states

What operations do on the way to an attribute or to the rules of a collection. A parameter is read
or refused. All parents on a path have to be records (section 6.1 of the specification). Every one
of them is brought into its normal form, and what a change does to the record at its end is a change
of the state around it (`ChangedAt`, `does_locate`). Rules are made where there are none
(`does_inRules`).
-/

namespace SchemaForge

open Change (withPart Does)

/-! ## Parameters -/

namespace Parameters

variable {ps : Parameters} {name : String} {v : Value}

/-- A parameter that has to be there is read, or its absence is refused. -/
theorem isOrderly_required : IsOrderly (required ps name) := by
  unfold required
  split
  · exact trivial
  · exact Refusal.noConfusion

/-- A parameter that `required` finds is also what `optional` reads under this name. -/
theorem optional_of_required (h : required ps name = .ok v) : ps.optional name = v := by
  unfold required at h
  unfold optional
  split at h
  · rename_i hfield
    rw [hfield, ← Except.ok.inj h, Option.getD_some]
  · cases h

/-- A parameter that is to be a name is read or refused by `nameOf`. -/
theorem isOrderly_nameOf : IsOrderly (ps.nameOf name) := by
  refine isOrderly_required.bind fun v => ?_
  split
  · exact trivial
  · exact trivial
  · exact Refusal.noConfusion

/-- A parameter that is to be a mapping is read or refused by `mappingOf`. -/
theorem isOrderly_mappingOf : IsOrderly (mappingOf name v) := by
  unfold mappingOf
  split
  · exact trivial
  · split
    · exact trivial
    · exact Refusal.noConfusion

/-- A parameter that is a list of keys is read or refused; no other kind of value passes for a list
here. -/
theorem isOrderly_keysOf : IsOrderly (keysOf name v) := by
  unfold keysOf
  split
  · exact trivial
  · split
    · exact trivial
    · exact Refusal.noConfusion

/-- The path of an operation is read or refused by `Parameters.path`. -/
theorem isOrderly_path : IsOrderly ps.path := by
  refine isOrderly_required.bind fun v => ?_
  split
  · exact trivial
  · exact trivial
  · exact trivial
  · exact isOrderly_keysOf

/-- Entries under the texts of their keys, of which later ones replace earlier ones, with plain
texts as keys. -/
def textFields (entries : List (Scalar × Value)) : List (String × Value) :=
  Entries.ofPairs (entries.map fun e => (e.1.text, e.2))

/-- Entries under the texts of their keys are those of a mapping with text keys. -/
theorem withTextKeys_eq (entries : List (Scalar × Value)) :
    withTextKeys entries = textEntries (textFields entries) := by
  have hmap : (entries.map fun e => (Scalar.str e.1.text, e.2))
      = textEntries (entries.map fun e => (e.1.text, e.2)) := by
    rw [textEntries, List.map_map]
    rfl
  unfold withTextKeys Entries.ofPairs
  rw [hmap]
  exact textEntries.putAll [] _

/-- Among entries that are put under the texts of their keys, no text is there twice. -/
theorem nodup_keys_textFields (entries : List (Scalar × Value)) :
    (Entries.keys (textFields entries)).Nodup :=
  Entries.nodup_keys_putAll List.nodup_nil

/-- The mapping that `mappingOf` reads has distinct texts as keys. -/
theorem exists_fields_of_mappingOf {es : List (Scalar × Value)} (h : mappingOf name v = .ok es) :
    ∃ fields, (Entries.keys fields).Nodup ∧ es = textEntries fields := by
  unfold mappingOf at h
  split at h
  · cases h
    exact ⟨[], List.nodup_nil, rfl⟩
  · split at h
    · cases h
      exact ⟨_, nodup_keys_textFields _, withTextKeys_eq _⟩
    · cases h

end Parameters

/-! ## Records on a path -/

namespace Operation

variable {v base : Value} {r : WorkingRecord} {F : String → WorkingRecord → WorkingRecord → Prop}

/-- The normal form of the record in a mapping: its attributes under the texts of their keys, and
its optional keys as texts. -/
def NormalForm (v : Value) (n : WorkingRecord) : Prop :=
  n.IsSound ∧ ∃ p o, v.get "properties" = .ok p ∧
    Parameters.mappingOf "properties" p = .ok (textEntries n.properties) ∧
      (withPart "properties" (.record n.properties) v).get "optional" = .ok o ∧
        Parameters.keysOf "optional" o = .ok n.optional

/-- The step `normalise` brings a record into its normal form, or refuses it, and leaves its other
parts alone. -/
theorem does_normalise (hv : v.isMapping = true) :
    Does id (fun w => w.isMapping = true) normalise v fun _ w =>
      ∃ n, NormalForm v n ∧ w = n.laidOver v := by
  obtain ⟨es, hes⟩ := Value.exists_entries? hv
  have hp := Value.get_of_entries? "properties" hes
  refine Does.bind (Change.does_look hp) ?_
  rintro p w ⟨rfl, rfl⟩
  refine Does.bind (Change.does_lift Parameters.isOrderly_mappingOf) ?_
  rintro ps w ⟨hps, rfl⟩
  obtain ⟨properties, hdistinct, rfl⟩ := Parameters.exists_fields_of_mappingOf hps
  refine Does.bind (Change.does_write (fun hw => Value.isMapping_withPart hw _ _)
    (Value.put_of_isMapping hv _ _)) ?_
  rintro - _ rfl
  -- The optional keys are looked up in what the first write left.
  have hw := Value.isMapping_withPart hv "properties" (.record properties)
  obtain ⟨es', hes'⟩ := Value.exists_entries? hw
  have ho := Value.get_of_entries? "optional" hes'
  refine Does.bind (Change.does_look ho) ?_
  rintro o _ ⟨rfl, rfl⟩
  refine Does.bind (Change.does_lift Parameters.isOrderly_keysOf) ?_
  rintro optional _ ⟨hoptional, rfl⟩
  refine Does.mono (Change.does_write (fun hw => Value.isMapping_withPart hw _ _)
    (Value.put_of_isMapping hw _ _)) ?_
  rintro - _ rfl
  exact ⟨⟨properties, optional⟩, ⟨hdistinct, _, _, hp, hps, ho, hoptional⟩, rfl⟩

/-- The record at the end of a path is changed as `F` says of its key. The records on the way are in
their normal form afterwards, and nothing else changes. -/
inductive ChangedAt (F : String → WorkingRecord → WorkingRecord → Prop) :
    List String → WorkingRecord → WorkingRecord → Prop
  /-- The record at hand is at the end. -/
  | here {key : String} {r r' : WorkingRecord} (h : F key r r') : ChangedAt F [key] r r'
  /-- The path leads on to a record under a key. -/
  | further {key next : String} {rest : List String} {r n n' : WorkingRecord} {v : Value}
      {es : List (Scalar × Value)} (hget : Entries.get? key r.properties = some v)
      (hes : v.entries? = some es) (htype : (fieldOf "type" es).same (.str "record") = true)
      (hn : NormalForm v n) (hn' : n'.IsSound) (h : ChangedAt F (next :: rest) n n') :
      ChangedAt F (key :: next :: rest) r
        { r with properties := Entries.put key (n'.laidOver v) r.properties }

/-- What is said of the record at the end of a path may be replaced by what follows from it. -/
theorem ChangedAt.mono {G : String → WorkingRecord → WorkingRecord → Prop} {path : List String}
    {r r' : WorkingRecord} (h : ChangedAt F path r r') (hFG : ∀ key r r', F key r r' → G key r r') :
    ChangedAt G path r r' := by
  induction h with
  | here h => exact .here (hFG _ _ _ h)
  | further hget hes htype hn hn' _ ih => exact .further hget hes htype hn hn' ih

variable {whole : List String} {change : String → Change Refusal Unit}

/-- The function `recordIn` finds the record attribute under a key, or refuses: there is none, or it
is no record. -/
theorem recordIn_record (whole : List String) (key : String) (fields : List (String × Value)) :
    (∃ v es, Entries.get? key fields = some v ∧ v.entries? = some es ∧
      (fieldOf "type" es).same (.str "record") = true ∧
        recordIn whole key (.record fields) = .ok v) ∨
      recordIn whole key (.record fields) = refuse (.noRecord whole) := by
  -- It is refused if it is missing, no mapping, or of another type.
  unfold recordIn
  rw [Value.get_record]
  cases hget : Entries.get? key fields with
  | none => exact .inr rfl
  | some v =>
    cases hes : v.entries? with
    | none =>
      refine .inr ?_
      rw [Outcome.lift_ok, Outcome.ok_bind, Option.getD_some, hes]
    | some es =>
      cases htype : (fieldOf "type" es).same (.str "record") with
      | true =>
        refine .inl ⟨v, es, rfl, hes, htype, ?_⟩
        rw [Outcome.lift_ok, Outcome.ok_bind, Option.getD_some, hes]
        dsimp only
        rw [if_pos htype]
        rfl
      | false =>
        refine .inr ?_
        rw [Outcome.lift_ok, Outcome.ok_bind, Option.getD_some, hes]
        dsimp only
        rw [if_neg (by rw [htype]; exact Bool.false_ne_true)]

/-- A change of the record at the end of a path is a change of the record at hand. The induction is
on the path, and each step normalises one record. -/
theorem does_inRecord (hb : base.isMapping = true)
    (h : ∀ base key r, base.isMapping = true → Does (WorkingRecord.laidOver base)
      WorkingRecord.IsSound (change key) r fun _ r' => F key r r') (path : List String) :
    Does (WorkingRecord.laidOver base) WorkingRecord.IsSound (inRecord whole change path) r
      fun _ r' => ChangedAt F path r r' := by
  induction path generalizing base r with
  | nil => exact Change.does_fail (by simp)
  | cons key rest ih =>
    cases rest with
    | nil => exact (h base key r hb).mono fun _ _ hF => .here hF
    | cons next rest =>
      show Does _ _ (.inItem "properties" (.within key (recordIn whole key) do
        normalise
        inRecord whole change (next :: rest))) _ _
      rcases recordIn_record whole key r.properties with
        ⟨v, es, hget, hes, htype, hpart⟩ | hpart
      · have hv := Value.isMapping_of_entries? hes
        -- Within the attribute of the first key, the record is normalised and the rest of the path
        -- followed. The induction is for all mappings under the record, of which this is another
        -- one.
        have hinner : Does id (fun w => w.isMapping = true)
            (do normalise; inRecord whole change (next :: rest)) v fun _ w =>
              ∃ n n', NormalForm v n ∧ n'.IsSound ∧ ChangedAt F (next :: rest) n n' ∧
                w = n'.laidOver v := by
          refine Does.bind (does_normalise hv) ?_
          rintro - _ ⟨n, hn, rfl⟩
          refine Does.mono (Does.along (ih (r := n) hv) rfl (fun _ => hn.1) (fun n => rfl)
            (fun n _ => WorkingRecord.isMapping_laidOver hv)) ?_
          rintro - _ ⟨n', hn', hchanged, rfl⟩
          exact ⟨n, n', hn, hn', hchanged, rfl⟩
        refine Does.mono (WorkingRecord.does_inProperties hb (Change.does_within hinner hpart
          (fun _ => hv) (fun w => Value.withPart_record)
          (fun w hps _ => Entries.nodup_keys_put hps))) ?_
        rintro - _ ⟨_, -, ⟨_, -, ⟨n, n', hn, hn', hchanged, rfl⟩, rfl⟩, rfl⟩
        exact .further hget hes htype hn hn' hchanged
      · exact (WorkingRecord.does_inProperties hb (P := fun _ _ => False)
          (Change.does_within_of_refused hpart (by simp))).mono fun _ _ ⟨_, _, h, _⟩ => h.elim

variable {ps : Parameters} {w : Working}

/-- The record that the parameters lead to is changed as `F` says of the key of the attribute; all
other collections stay as they are. -/
def LocatedChange (ps : Parameters) (F : String → WorkingRecord → WorkingRecord → Prop)
    (w w' : Working) : Prop :=
  ∃ name path c r, ps.nameOf "collection" = .ok name ∧ ps.path = .ok path ∧
    Entries.get? name w.collections = some c ∧ ChangedAt F path c.record r ∧
      w' = { w with collections := Entries.put name { c with record := r } w.collections }

/-- A change of the record that the parameters lead to is one of the state, whichever collection and
path they name. -/
theorem does_locate
    (h : ∀ base key r, base.isMapping = true → Does (WorkingRecord.laidOver base)
      WorkingRecord.IsSound (change key) r fun _ r' => F key r r') :
    Does Working.toValue Working.IsSound (locate ps change) w fun _ w' =>
      LocatedChange ps F w w' := by
  refine Does.bind (Change.does_lift Parameters.isOrderly_nameOf) ?_
  rintro name _ ⟨hname, rfl⟩
  refine Does.mono (Working.does_inCollection (P := fun c _ c' => ∃ path r,
    ps.path = .ok path ∧ ChangedAt F path c.record r ∧ c' = { c with record := r })
      fun c _ => ?_) ?_
  · refine Does.bind (Change.does_lift Parameters.isOrderly_path) ?_
    rintro path c ⟨hpath, rfl⟩
    refine Change.does_unless (by simp) fun _ => ?_
    have hb : (recordOf [] []).isMapping = true := rfl
    refine Does.mono (WorkingCollection.does_inSchema (does_inRecord hb h path)) ?_
    rintro - _ ⟨r, -, hchanged, rfl⟩
    exact ⟨path, r, hpath, hchanged, rfl⟩
  · rintro - w' ⟨c, _, hget, ⟨path, r, hpath, hchanged, rfl⟩, rfl⟩
    exact ⟨name, path, c, r, hname, hpath, hget, hchanged, rfl⟩

/-- The function `attributeIn` finds the attribute under a key, or refuses: there is none, or it is
no mapping. -/
theorem attributeIn_record (key : String) (fields : List (String × Value)) :
    (∃ v, Entries.get? key fields = some v ∧ v.isMapping = true ∧
      attributeIn key (.record fields) = .ok v) ∨
      ∃ cause, cause ≠ .rulesNotMapping ∧
        attributeIn key (.record fields) = refuse cause := by
  -- It is refused if it is missing or absent, and with another cause if it is no mapping.
  unfold attributeIn
  rw [Value.get_record]
  cases hget : Entries.get? key fields with
  | none => exact .inr ⟨.noAttribute key, by simp, rfl⟩
  | some v =>
    cases hnull : v.isNull with
    | true =>
      refine .inr ⟨.noAttribute key, by simp, ?_⟩
      show (if v.isNull = true then _ else _) = _
      rw [if_pos hnull]
      rfl
    | false =>
      have hnull' : ¬v.isNull = true := by rw [hnull]; exact Bool.false_ne_true
      cases hmapping : v.isMapping with
      | true =>
        refine .inl ⟨v, rfl, hmapping, ?_⟩
        show (if v.isNull = true then _ else if v.isMapping = true then _ else _) = _
        rw [if_neg hnull', if_pos hmapping]
        rfl
      | false =>
        refine .inr ⟨.attributeNotMapping key, by simp, ?_⟩
        show (if v.isNull = true then _ else if v.isMapping = true then _ else _) = _
        rw [if_neg hnull', if_neg (by rw [hmapping]; exact Bool.false_ne_true)]

variable {key : String}

/-- A change of the attribute under a key is a change of the record: the attribute is replaced in
the properties, and nothing else of the record changes. -/
theorem does_inAttribute {change : Change Refusal Unit} {G : Value → Value → Prop}
    (hb : base.isMapping = true)
    (h : ∀ v, v.isMapping = true →
      Does id (fun w => w.isMapping = true) change v fun _ v' => G v v') :
    Does (WorkingRecord.laidOver base) WorkingRecord.IsSound (inAttribute key change) r fun _ r' =>
      ∃ v v', Entries.get? key r.properties = some v ∧ G v v' ∧
        r' = { r with properties := Entries.put key v' r.properties } := by
  rcases attributeIn_record key r.properties with ⟨v, hget, hv, hpart⟩ | ⟨cause, hcause, hpart⟩
  · refine Does.mono (WorkingRecord.does_inProperties hb (Change.does_within (h v hv) hpart
      (fun _ => hv) (fun w => Value.withPart_record)
      (fun w hps _ => Entries.nodup_keys_put hps))) ?_
    rintro - _ ⟨_, -, ⟨v', -, hG, rfl⟩, rfl⟩
    exact ⟨v, v', hget, hG, rfl⟩
  · exact (WorkingRecord.does_inProperties hb (P := fun _ _ => False)
      (Change.does_within_of_refused hpart hcause)).mono fun _ _ ⟨_, _, h, _⟩ => h.elim

/-- The optional keys with a key made optional or not: it goes to the end, or away. -/
def withOptional (key : String) (optional : Bool) (keys : List String) : List String :=
  if optional then keys.filter (· ≠ key) ++ [key] else keys.filter (· ≠ key)

/-- Keys that are texts are given back by `Value.text`, one by one. -/
theorem map_text_map_str (keys : List String) : (keys.map Value.str).map Value.text = keys := by
  rw [List.map_map]
  exact List.map_id' keys

/-- The function `setOptional` makes a key of a record optional or not, and always has a result. -/
theorem runOn_setOptional (hb : base.isMapping = true) (key : String) (optional : Bool)
    (r : WorkingRecord) : (setOptional key optional).runOn (r.laidOver base)
      = (.ok (), WorkingRecord.laidOver base
        { r with optional := withOptional key optional r.optional }) := by
  -- The list of the optional keys is the loop itself, even if it is empty and replaced by another
  -- one.
  have helements : ((Value.list (r.optional.map .str)).orElse (.list [])).elements
      = .ok (r.optional.map .str) := by
    cases r.optional with
    | nil => rfl
    | cons k keys => rfl
  have hput : (r.laidOver base).put "optional" (.list ((withOptional key optional r.optional).map
      .str)) = .ok (WorkingRecord.laidOver base
        { r with optional := withOptional key optional r.optional }) := by
    rw [Value.put_of_isMapping (WorkingRecord.isMapping_laidOver hb),
      WorkingRecord.withPart_optional_laidOver hb]
  have hlook : (Change.look "optional" : Change Refusal Value).runOn (r.laidOver base)
      = (.ok (.list (r.optional.map .str)), r.laidOver base) := by
    rw [Change.runOn_look, WorkingRecord.get_optional_laidOver hb]
    rfl
  refine Change.runOn_bind_eq_ok.mpr ⟨_, _, hlook, ?_⟩
  rw [helements]
  refine Change.runOn_bind_eq_ok.mpr ⟨_, _, rfl, ?_⟩
  dsimp only
  rw [map_text_map_str]
  exact Change.runOn_replace hput

/-- The function `setOptional` makes a key of a record optional or takes it out of the optional
keys, and a key that is made optional stands at their end. -/
theorem does_setOptional (hb : base.isMapping = true) (key : String) (optional : Bool) :
    Does (WorkingRecord.laidOver base) WorkingRecord.IsSound (setOptional key optional) r
      fun _ r' => r' = { r with optional := withOptional key optional r.optional } := by
  refine Does.mono (Change.does_of_runOn_eq_ok ?_ (runOn_setOptional hb key optional r))
    fun _ _ h => h.2
  exact fun hr => hr

/-- A collection gets empty rules where it has none, and keeps those that it has. -/
theorem does_writeNewRules (c : WorkingCollection) :
    Does WorkingCollection.toValue WorkingCollection.IsSound (.writeNew "rules" (.mapping [])) c
      fun _ c' => c' = { c with rules := some (c.rules.getD []) } := by
  obtain ⟨record, rules⟩ := c
  cases rules with
  | none =>
    refine Change.does_writeNew_of_not_has (fun hc => ⟨hc.record, fun rules h => ?_⟩)
      Value.entries?_record (by rw [Entries.has, textEntries.get?]; rfl) ?_
    · cases h
      exact List.nodup_nil
    · rw [WorkingCollection.toValue, Value.put_record]
      rfl
  | some rules =>
    exact Change.does_writeNew_of_has Value.entries?_record
      (by rw [Entries.has, textEntries.get?]; rfl)

/-- A change of the rules of a collection, which has rules afterwards, also if the change is
refused. -/
theorem does_inRules {change : Change Refusal Unit} {c : WorkingCollection}
    {P : Unit → List (String × Value) → Prop}
    (h : Does Value.record (fun ps => (Entries.keys ps).Nodup) change (c.rules.getD []) P) :
    Does WorkingCollection.toValue WorkingCollection.IsSound (inRules change) c fun _ c' =>
      ∃ rules, P () rules ∧ c' = { c with rules := some rules } := by
  refine Does.bind (does_writeNewRules c) ?_
  rintro - _ rfl
  have hput : ∀ rules, withPart "rules" (.record rules)
      (WorkingCollection.toValue { c with rules := some (c.rules.getD []) })
        = WorkingCollection.toValue { c with rules := some rules } := fun rules => by
    rw [WorkingCollection.toValue, Value.withPart_record]
    rfl
  refine Does.mono (Change.does_within h ?_ (fun hc => hc.rules _ rfl) hput ?_) ?_
  · rw [WorkingCollection.toValue, Value.get_record]
    rfl
  · exact fun rules hc hrules => ⟨hc.record, fun _ h => by cases h; exact hrules⟩
  · rintro a _ ⟨rules, -, hpost, rfl⟩
    exact ⟨rules, hpost, rfl⟩

end Operation

end SchemaForge
