import SchemaForge.Proofs.Migration.Safety

/-!
# What failing steps leave

Errors are raised where they are detected and never recovered from (section 7 of the specification),
so a step that fails keeps what it has done so far. Each operation checks before it changes anything
that matters, so not much is left (`Operation.Abandons`): records on the way to an attribute in
their normal form, the last of them perhaps with its attributes only (`Settles`), and rules without
scopes, or a scope without rules, where a rule was to be put. A change that only looks at its value,
and one that fails before its single write, leave the value as it is (`FailsClean`); the rest is put
together along sequences and parts (`FailsTo`).
-/

namespace SchemaForge

open Change (withPart Does)

namespace Change

variable {σ τ : Type} {ε α β : Type} {repr : σ → Value} {good : σ → Prop} {x : σ}

/-! ## Changes that fail before they write -/

/-- The change only looks at the value and never changes it, whether it succeeds or fails. -/
def Looks (change : Change ε α) : Prop := ∀ v, (change.runOn v).2 = v

/-- Where the change fails the value is as it was; where it succeeds, the value may be another
one. -/
def FailsClean (change : Change ε α) : Prop :=
  ∀ v failure w, change.runOn v = (.error failure, w) → w = v

/-- A change that only looks at the value leaves it as it was wherever it fails. -/
theorem Looks.failsClean {change : Change ε α} (h : Looks change) : FailsClean change := by
  intro v failure w hrun
  rw [← h v, hrun]

/-- Of two changes one after the other, if the first one `Looks` and the second one `FailsClean`, so
do both together. -/
theorem Looks.bind_failsClean {change : Change ε α} {f : α → Change ε β} (h : Looks change)
    (hf : ∀ a, FailsClean (f a)) : FailsClean (change >>= f) := by
  intro v failure w hrun
  have hv := h v
  rw [runOn_bind] at hrun
  generalize change.runOn v = r at hrun hv
  obtain ⟨result, u⟩ := r
  obtain rfl : u = v := hv
  cases result with
  | error failure' =>
    cases hrun
    rfl
  | ok a => exact hf a u failure w hrun

/-- A look that goes on with a look is one: neither of them changes the value. -/
theorem Looks.bind {change : Change ε α} {f : α → Change ε β} (h : Looks change)
    (hf : ∀ a, Looks (f a)) : Looks (change >>= f) := by
  intro v
  have hv := h v
  rw [runOn_bind]
  generalize change.runOn v = r at hv
  obtain ⟨result, u⟩ := r
  obtain rfl : u = v := hv
  cases result with
  | error failure => rfl
  | ok a => exact hf a u

/-- What has an outcome without touching the value only `Looks`. -/
theorem looks_lift (outcome : Outcome ε α) : Looks (liftM outcome : Change ε α) := fun _ => rfl

/-- An access that is part of a change looks at nothing and changes nothing. -/
theorem looks_access (access : Except Fault α) : Looks (liftM access : Change ε α) := fun _ => rfl

/-- A refusal changes nothing, so it counts as a look. -/
theorem looks_fail (cause : ε) : Looks (fail cause : Change ε α) := fun _ => rfl

/-- Taking the whole value is a look. -/
theorem looks_get : Looks (get : Change ε Value) := fun _ => rfl

/-- Taking the part under a name is a look. -/
theorem looks_look (name : String) : Looks (look name : Change ε Value) := fun _ => rfl

/-- Asking whether there is a part under a name is a look. -/
theorem looks_holds (name : String) : Looks (holds name : Change ε Bool) := fun _ => rfl

/-- A replacement is worked out before it is made, so it either fails or happens, and so
`FailsClean`. -/
theorem failsClean_replace (g : Value → Except Fault Value) :
    FailsClean (do set (← liftM (g (← get))) : Change ε Unit) := by
  intro v failure w hrun
  cases hg : g v with
  | ok u =>
    rw [runOn_replace hg] at hrun
    cases hrun
  | error fault =>
    have hfails : (do set (← liftM (g (← get))) : Change ε Unit).runOn v
        = (do set (← liftM (g v)) : Change ε Unit).runOn v := rfl
    rw [hfails, hg] at hrun
    cases hrun
    rfl

/-- The step `write` puts a part in, or fails and changes nothing. -/
theorem failsClean_write (name : String) (v : Value) :
    FailsClean (write name v : Change ε Unit) := failsClean_replace fun w => w.put name v

/-- The step `erase` takes a part away, or fails and changes nothing. -/
theorem failsClean_erase (name : String) : FailsClean (erase name : Change ε Unit) :=
  failsClean_replace fun w => w.delete name

/-- The step `discard` takes a part away, or fails and changes nothing. -/
theorem failsClean_discard (name : String) : FailsClean (discard name : Change ε Unit) :=
  failsClean_replace fun w => w.discard name

/-- The step `writeNew` puts a part in where there is nothing, or fails and changes nothing. -/
theorem failsClean_writeNew (name : String) (v : Value) :
    FailsClean (writeNew name v : Change ε Unit) := by
  refine looks_get.bind_failsClean fun w => ?_
  split
  · split
    · exact Looks.failsClean fun _ => rfl
    · exact failsClean_write name v
  · exact Looks.failsClean fun _ => rfl

/-- A refusal that comes first changes nothing, so what goes on may fail clean after it. -/
theorem failsClean_unless {b : Bool} {cause : ε} {rest : Unit → Change ε α}
    (h : FailsClean (rest ())) :
    FailsClean (if b = true then fail cause >>= rest else rest ()) := by
  cases b with
  | true => exact (looks_fail cause).bind_failsClean fun _ => h
  | false => exact h

/-! ## What a failure leaves -/

/-- Where the change fails on the value that represents `x`, it leaves what represents something of
which `Q` holds. Together with `Does` this says what a change leaves in every case. -/
def FailsTo (repr : σ → Value) (change : Change Refusal α) (x : σ) (Q : σ → Prop) : Prop :=
  ∀ failure v, change.runOn (repr x) = (.error failure, v) → ∃ y, v = repr y ∧ Q y

variable {change : Change Refusal α} {f : α → Change Refusal β} {P : α → σ → Prop}
  {Q Q' : σ → Prop}

/-- Where a change that `FailsClean` fails, it leaves exactly what was there before. -/
theorem FailsClean.failsTo (h : FailsClean change) : FailsTo repr change x fun y => y = x :=
  fun _ _ hrun => ⟨x, h _ _ _ hrun, rfl⟩

/-- What a change leaves where it fails also has every weaker property. -/
theorem FailsTo.mono (h : FailsTo repr change x Q) (hQ : ∀ y, Q y → Q' y) :
    FailsTo repr change x Q' := by
  intro failure v hrun
  obtain ⟨y, hv, hy⟩ := h failure v hrun
  exact ⟨y, hv, hQ y hy⟩

/-- A change that has a result does not fail, so that anything may be said of what its failure
leaves. -/
theorem failsTo_of_runOn_eq_ok {a : α} {v : Value} (h : change.runOn (repr x) = (.ok a, v)) :
    FailsTo repr change x Q := by
  intro failure w hrun
  rw [h] at hrun
  cases hrun

/-- A sequence fails in its first change, or in its second one after the first one is done. Only in
the second case does it matter what the first one does. -/
theorem FailsTo.bind (h : FailsTo repr change x Q) (hdoes : Does repr good change x P)
    (hx : good x) (hf : ∀ a y, P a y → good y → FailsTo repr (f a) y Q) :
    FailsTo repr (change >>= f) x Q := by
  intro failure v hrun
  obtain ⟨y, hy, hgood, -, hpost⟩ := hdoes hx
  have hfirst := h
  unfold FailsTo at hfirst
  rw [runOn_bind] at hrun
  generalize change.runOn (repr x) = r at hrun hy hpost hfirst
  obtain ⟨result, u⟩ := r
  obtain rfl : u = repr y := hy
  cases result with
  | error failure' =>
    cases hrun
    exact hfirst _ _ rfl
  | ok a => exact hf a y (hpost a rfl) hgood failure v hrun

/-- A change that `Looks` leaves the value to the second change as it was, so that only the second
one can fail to something else. -/
theorem FailsTo.bind_looks (h : Looks change) (hx : Q x)
    (hf : ∀ a, (change.runOn (repr x)).1 = .ok a → FailsTo repr (f a) x Q) :
    FailsTo repr (change >>= f) x Q := by
  intro failure v hrun
  have hv := h (repr x)
  rw [runOn_bind] at hrun
  generalize change.runOn (repr x) = r at hrun hv hf
  obtain ⟨result, u⟩ := r
  obtain rfl : u = repr x := hv
  cases result with
  | error failure' =>
    cases hrun
    exact ⟨x, rfl, hx⟩
  | ok a => exact hf a rfl failure v hrun

/-- A refusal that comes first leaves the value alone. What it would have kept from happening is
only run where it does not come. -/
theorem failsTo_unless {b : Bool} {cause : Refusal} {rest : Unit → Change Refusal α} (hx : Q x)
    (h : b = false → FailsTo repr (rest ()) x Q) :
    FailsTo repr (if b = true then fail cause >>= rest else rest ()) x Q := by
  cases b with
  | true => exact FailsTo.bind_looks (looks_fail cause) hx fun a ha => by cases ha
  | false => exact h rfl

section Part

variable {repr' : τ → Value} {part : Value → Outcome Refusal Value} {name : String} {y : τ}
  {back : τ → σ} {R : τ → Prop}

/-- What a failing change leaves of a part is put back into the value, so the failure of a part is
seen in the whole. -/
theorem failsTo_within (h : FailsTo repr' change y R) (hpart : part (repr x) = .ok (repr' y))
    (hput : ∀ z, withPart name (repr' z) (repr x) = repr (back z)) :
    FailsTo repr (within name part change) x fun w => ∃ z, R z ∧ w = back z := by
  intro failure v hrun
  rw [runOn_within, hpart] at hrun
  obtain ⟨hresult, hleft⟩ := Prod.mk.inj hrun
  obtain ⟨z, hz, hR⟩ := h failure (change.runOn (repr' y)).2 (Prod.ext hresult rfl)
  refine ⟨back z, ?_, z, hR, rfl⟩
  rw [← hleft, hz, hput]

/-- Where the value has no such part, `within` fails and the value stays as it is. -/
theorem failsTo_within_of_error {failure : Failure Refusal}
    (hpart : part (repr x) = .error failure) (hx : Q x) :
    FailsTo repr (within name part change) x Q := by
  intro failure' v hrun
  rw [runOn_within, hpart] at hrun
  cases hrun
  exact ⟨x, rfl, hx⟩

/-- A failure may be seen as one on another kind of thing, if both are represented by the same
values. -/
theorem FailsTo.along (h : FailsTo repr' change y R) (hy : repr' y = repr x)
    (hrepr : ∀ z, repr' z = repr (back z)) :
    FailsTo repr change x fun w => ∃ z, R z ∧ w = back z := by
  intro failure v hrun
  rw [← hy] at hrun
  obtain ⟨z, hz, hR⟩ := h failure v hrun
  exact ⟨back z, hz.trans (hrepr z), z, hR, rfl⟩

end Part

end Change

open Change (FailsTo FailsClean Looks)

/-! ## Parts of working states -/

/-- What a failing change leaves of the attributes of a record is left in the record. -/
theorem WorkingRecord.failsTo_inProperties {base : Value} {r : WorkingRecord}
    {change : Change Refusal α} {R : List (String × Value) → Prop} (hb : base.isMapping = true)
    (h : FailsTo Value.record change r.properties R) :
    FailsTo (WorkingRecord.laidOver base) (.inItem "properties" change) r fun r' =>
      ∃ ps, R ps ∧ r' = { r with properties := ps } := by
  refine Change.failsTo_within h ?_ (withPart_properties_laidOver hb)
  rw [item_properties_laidOver hb]
  rfl

/-- What a failing change leaves of the record of a collection is left in the collection. -/
theorem WorkingCollection.failsTo_inSchema {c : WorkingCollection} {change : Change Refusal α}
    {R : WorkingRecord → Prop} (h : FailsTo WorkingRecord.toValue change c.record R) :
    FailsTo toValue (.inItem "schema" change) c fun c' =>
      ∃ r, R r ∧ c' = { c with record := r } := by
  refine Change.failsTo_within h ?_ fun r => Value.withPart_record
  rw [toValue, Value.item_record rfl]
  rfl

namespace Working

variable {w : Working} {name : String}

/-- A change of the collections of a state fails to states whose collections it fails to. -/
theorem failsTo_inCollections {change : Change Refusal α}
    {R : List (String × WorkingCollection) → Prop}
    (h : FailsTo WorkingCollection.allToValue change w.collections R) :
    FailsTo toValue (.inItem "collections" change) w fun w' =>
      ∃ cs, R cs ∧ w' = { w with collections := cs } := by
  refine Change.failsTo_within h ?_ fun cs => Value.withPart_record
  rw [toValue, Value.item_record rfl]
  rfl

/-- What a failing change leaves of the collection of a name is left in the state; if there is none,
nothing changes. -/
theorem failsTo_inCollection {change : Change Refusal α}
    {R : WorkingCollection → WorkingCollection → Prop}
    (h : ∀ c, Entries.get? name w.collections = some c →
      FailsTo WorkingCollection.toValue change c (R c)) :
    FailsTo toValue (Operation.inCollection name change) w fun w' =>
      w' = w ∨ ∃ c c', Entries.get? name w.collections = some c ∧ R c c' ∧
        w' = { w with collections := Entries.put name c' w.collections } := by
  have hpart := collectionIn_allToValue name w.collections
  -- Without the collection the step is refused at once; with it, it may have changed when it fails.
  cases hget : Entries.get? name w.collections with
  | none =>
    rw [hget] at hpart
    refine FailsTo.mono (failsTo_inCollections
      (Change.failsTo_within_of_error (Q := fun cs => cs = w.collections) hpart rfl)) ?_
    rintro _ ⟨_, rfl, rfl⟩
    exact .inl rfl
  | some c =>
    rw [hget] at hpart
    refine FailsTo.mono (failsTo_inCollections (Change.failsTo_within (h c hget) hpart
      fun c' => withPart_allToValue name c' w.collections)) ?_
    rintro _ ⟨_, ⟨c', hR, rfl⟩, rfl⟩
    exact .inr ⟨c, c', rfl, hR, rfl⟩

end Working

namespace Operation

variable {ps : Parameters} {w : Working} {base v : Value} {r : WorkingRecord}

/-! ## Records on a path -/

/-- What is left of the record that is being brought into its normal form: the record, or only its
attributes in their normal form, where what it has as optional keys is no list. -/
inductive HalfNormal (v : Value) : Value → Prop
  /-- Nothing has happened to the record. -/
  | untouched : HalfNormal v v
  /-- The attributes are in their normal form. -/
  | properties {p : Value} {fields : List (String × Value)} (hp : v.get "properties" = .ok p)
      (hfields : Parameters.mappingOf "properties" p = .ok (textEntries fields)) :
      HalfNormal v (withPart "properties" (.record fields) v)

/-- What is left of a record when a change fails on the way from it, or at the end of the way: the
records up to there are in their normal form, and one may be half way. -/
inductive Settles : WorkingRecord → WorkingRecord → Prop
  /-- The record as it is. -/
  | refl (r : WorkingRecord) : Settles r r
  /-- The next record on the way could not be brought into its normal form. -/
  | half {key : String} {r : WorkingRecord} {v v' : Value} {es : List (Scalar × Value)}
      (hget : Entries.get? key r.properties = some v) (hes : v.entries? = some es)
      (htype : (fieldOf "type" es).same (.str "record") = true) (h : HalfNormal v v') :
      Settles r { r with properties := Entries.put key v' r.properties }
  /-- The next record on the way is in its normal form, and the way led on from it. -/
  | further {key : String} {r n n' : WorkingRecord} {v : Value} {es : List (Scalar × Value)}
      (hget : Entries.get? key r.properties = some v) (hes : v.entries? = some es)
      (htype : (fieldOf "type" es).same (.str "record") = true) (hn : NormalForm v n)
      (h : Settles n n') :
      Settles r { r with properties := Entries.put key (n'.laidOver v) r.properties }

/-- The step `normalise` fails before it writes, or between its two writes, and leaves a
`HalfNormal` record then. -/
theorem failsTo_normalise (hv : v.isMapping = true) :
    FailsTo id normalise v (HalfNormal v) := by
  obtain ⟨es, hes⟩ := Value.exists_entries? hv
  have hp := Value.get_of_entries? "properties" hes
  refine FailsTo.bind_looks (Change.looks_look _) .untouched fun p hlook => ?_
  rw [Change.runOn_look, id, hp] at hlook
  obtain rfl := Except.ok.inj hlook
  refine FailsTo.bind_looks (Change.looks_lift _) .untouched fun ps hps => ?_
  rw [Change.runOn_lift] at hps
  obtain ⟨fields, -, rfl⟩ := Parameters.exists_fields_of_mappingOf hps
  have hleft : HalfNormal v (withPart "properties" (.record fields) v) := .properties hp hps
  have hput := Value.put_of_isMapping hv "properties" (.record fields)
  have hdoes : Change.Does id (fun w => w.isMapping = true)
      (Change.write "properties" (.record fields)) v fun _ w =>
        w = withPart "properties" (.record fields) v :=
    Change.does_write (fun hw => Value.isMapping_withPart hw _ _) hput
  refine FailsTo.bind (Change.failsTo_of_runOn_eq_ok (Change.runOn_replace hput)) hdoes hv ?_
  rintro - _ rfl -
  -- the attributes are written, and from here on nothing else is before the last write
  refine FailsTo.mono (FailsClean.failsTo ?_) fun w hw => hw ▸ hleft
  refine (Change.looks_look _).bind_failsClean fun o => ?_
  exact (Change.looks_lift _).bind_failsClean fun keys => Change.failsClean_write _ _

variable {whole : List String} {change : String → Change Refusal Unit}

/-- A change that fails at the end of a path, or on the way, leaves what `Settles` says. The
induction is on the path. -/
theorem failsTo_inRecord (hb : base.isMapping = true)
    (h : ∀ base key r, base.isMapping = true → WorkingRecord.IsSound r →
      FailsTo (WorkingRecord.laidOver base) (change key) r fun r' => r' = r)
    (path : List String) (hr : r.IsSound) :
    FailsTo (WorkingRecord.laidOver base) (inRecord whole change path) r (Settles r) := by
  induction path generalizing base r with
  | nil =>
    exact (Change.looks_fail _).failsClean.failsTo.mono fun r' hr' => hr' ▸ .refl r
  | cons key rest ih =>
    cases rest with
    | nil => exact (h base key r hb hr).mono fun r' hr' => hr' ▸ .refl r
    | cons next rest =>
      show FailsTo _ (.inItem "properties" (.within key (recordIn whole key) do
        normalise
        inRecord whole change (next :: rest))) _ _
      rcases recordIn_record whole key r.properties with
        ⟨v, es, hget, hes, htype, hpart⟩ | hpart
      · have hv := Value.isMapping_of_entries? hes
        -- the next record is left half normal, or normal and changed from there on
        have hinner : FailsTo id (do normalise; inRecord whole change (next :: rest)) v fun v' =>
            HalfNormal v v' ∨ ∃ n n', NormalForm v n ∧ Settles n n' ∧ v' = n'.laidOver v := by
          refine FailsTo.bind ((failsTo_normalise hv).mono fun v' hv' => .inl hv')
            (does_normalise hv) hv ?_
          rintro - _ ⟨n, hn, rfl⟩ -
          refine FailsTo.mono (FailsTo.along (ih (r := n) hv hn.1) rfl fun n => rfl) ?_
          rintro _ ⟨n', hn', rfl⟩
          exact .inr ⟨n, n', hn, hn', rfl⟩
        refine FailsTo.mono (WorkingRecord.failsTo_inProperties hb (Change.failsTo_within hinner
          hpart fun v' => Value.withPart_record)) ?_
        rintro _ ⟨_, ⟨v', hv' | ⟨n, n', hn, hn', rfl⟩, rfl⟩, rfl⟩
        · exact .half hget hes htype hv'
        · exact .further hget hes htype hn hn'
      -- no record is found under the key
      · refine FailsTo.mono (WorkingRecord.failsTo_inProperties hb
          (Change.failsTo_within_of_error (Q := fun fields => fields = r.properties) hpart rfl)) ?_
        rintro _ ⟨_, rfl, rfl⟩
        exact .refl r

/-! ## Attributes -/

/-- Nothing has happened to a state, or what `G` says has happened to the collection that the
parameters name. -/
def LeftIn (ps : Parameters) (G : WorkingCollection → WorkingCollection → Prop)
    (w w' : Working) : Prop :=
  w' = w ∨ ∃ name c c', ps.nameOf "collection" = .ok name ∧
    Entries.get? name w.collections = some c ∧ G c c' ∧
      w' = { w with collections := Entries.put name c' w.collections }

/-- What a failing change leaves of the collection that the parameters name is left in the state. -/
theorem failsTo_inNamed {change : Change Refusal Unit}
    {G : WorkingCollection → WorkingCollection → Prop}
    (h : ∀ c, c.IsSound → FailsTo WorkingCollection.toValue change c (G c)) (hw : w.IsSound) :
    FailsTo Working.toValue (do inCollection (← ps.nameOf "collection") change) w
      (LeftIn ps G w) := by
  refine FailsTo.bind_looks (Change.looks_lift _) (.inl rfl) fun name hname => ?_
  rw [Change.runOn_lift] at hname
  refine FailsTo.mono (Working.failsTo_inCollection fun c hget =>
    h c (hw.all _ (Entries.mem_of_get? hget))) ?_
  rintro w' (rfl | ⟨c, c', hget, hG, rfl⟩)
  · exact .inl rfl
  · exact .inr ⟨name, c, c', hname, hget, hG, rfl⟩

/-- The collection with a record that `Settles`, and with the same rules. -/
def SettlesRecord (c c' : WorkingCollection) : Prop :=
  ∃ r, Settles c.record r ∧ c' = { c with record := r }

/-- A change that leaves the record at the end of the path as it is, where it fails, leaves the
collection with a record that `Settles`. -/
theorem failsTo_locate (hw : w.IsSound)
    (h : ∀ base key r, base.isMapping = true → WorkingRecord.IsSound r →
      FailsTo (WorkingRecord.laidOver base) (change key) r fun r' => r' = r) :
    FailsTo Working.toValue (locate ps change) w (LeftIn ps SettlesRecord w) := by
  refine failsTo_inNamed (fun c hc => ?_) hw
  have hstay : SettlesRecord c c := ⟨c.record, .refl _, rfl⟩
  refine FailsTo.bind_looks (Change.looks_lift _) hstay fun path _ => ?_
  refine Change.failsTo_unless hstay fun _ => ?_
  have hb : (recordOf [] []).isMapping = true := rfl
  exact WorkingCollection.failsTo_inSchema (failsTo_inRecord hb h path hc.record)

/-- A change of the attributes of a record that fails clean leaves the record as it is. -/
theorem failsTo_inProperties_of_failsClean {change : Change Refusal α}
    (hb : base.isMapping = true) (h : FailsClean change) :
    FailsTo (WorkingRecord.laidOver base) (.inItem "properties" change) r fun r' => r' = r := by
  refine FailsTo.mono (WorkingRecord.failsTo_inProperties hb h.failsTo) ?_
  rintro _ ⟨_, rfl, rfl⟩
  rfl

/-- A change of an attribute of a record that fails clean leaves the record as it is. -/
theorem failsTo_inAttribute {change : Change Refusal Unit} (hb : base.isMapping = true)
    (key : String) (h : FailsClean change) :
    FailsTo (WorkingRecord.laidOver base) (inAttribute key change) r fun r' => r' = r := by
  rcases attributeIn_record key r.properties with ⟨v, hget, hv, hpart⟩ | ⟨cause, -, hpart⟩
  · have hchange : FailsTo id change v fun v' => v' = v := h.failsTo
    refine FailsTo.mono (WorkingRecord.failsTo_inProperties hb
      (Change.failsTo_within hchange hpart fun w => Value.withPart_record)) ?_
    rintro _ ⟨_, ⟨v, rfl, rfl⟩, rfl⟩
    show { r with properties := Entries.put key v r.properties } = r
    rw [Entries.put_of_get? hget]
  · refine FailsTo.mono (WorkingRecord.failsTo_inProperties hb
      (Change.failsTo_within_of_error (Q := fun fields => fields = r.properties) hpart rfl)) ?_
    rintro _ ⟨_, rfl, rfl⟩
    rfl

/-- The function `setOptional` does not fail on a record. -/
theorem failsTo_setOptional (hb : base.isMapping = true) (key : String) (optional : Bool)
    {Q : WorkingRecord → Prop} :
    FailsTo (WorkingRecord.laidOver base) (setOptional key optional) r Q :=
  Change.failsTo_of_runOn_eq_ok (runOn_setOptional hb key optional r)

/-- The operation `runAddAttribute` leaves the record on its way in normal form where it fails, and
no attribute. -/
theorem failsTo_addAttribute (hw : w.IsSound) :
    FailsTo Working.toValue (runAddAttribute ps) w (LeftIn ps SettlesRecord w) := by
  refine failsTo_locate hw fun base key r hb hr => ?_
  refine FailsTo.bind (failsTo_inProperties_of_failsClean hb ?_)
    (WorkingRecord.does_inProperties hb (does_addProperty key r.properties)) hr
    fun _ _ _ _ => failsTo_setOptional hb key _
  refine (Change.looks_holds key).bind_failsClean fun _ => ?_
  refine Change.failsClean_unless ?_
  refine (Change.looks_lift _).bind_failsClean fun added => ?_
  split
  · exact Change.failsClean_write _ _
  · exact (Change.looks_fail _).failsClean

/-- The operation `runDropAttribute` leaves the record on its way in normal form where it fails. -/
theorem failsTo_dropAttribute (hw : w.IsSound) :
    FailsTo Working.toValue (runDropAttribute ps) w (LeftIn ps SettlesRecord w) := by
  refine failsTo_locate hw fun base key r hb hr => ?_
  refine FailsTo.bind (failsTo_inProperties_of_failsClean hb ?_)
    (WorkingRecord.does_inProperties hb (does_dropProperty key r.properties)) hr
    fun _ _ _ _ => failsTo_setOptional hb key _
  refine Change.looks_get.bind_failsClean fun _ => ?_
  exact (Change.looks_lift _).bind_failsClean fun _ => Change.failsClean_erase key

/-- The operation `runSetAttributeOptional` leaves the record on its way in normal form where it
fails. -/
theorem failsTo_setAttributeOptional (hw : w.IsSound) :
    FailsTo Working.toValue (runSetAttributeOptional ps) w (LeftIn ps SettlesRecord w) := by
  refine failsTo_locate hw fun base key r hb hr => ?_
  refine FailsTo.bind (failsTo_inProperties_of_failsClean hb ?_)
    (WorkingRecord.does_inProperties hb (does_findProperty key r.properties)) hr ?_
  · refine Looks.failsClean (Change.looks_get.bind fun _ => ?_)
    exact (Change.looks_lift _).bind fun _ => fun _ => rfl
  · rintro - _ ⟨_, -, ⟨-, rfl⟩, rfl⟩ -
    exact FailsTo.bind_looks (Change.looks_lift _) rfl fun _ _ => failsTo_setOptional hb key _

/-- The settings of an attribute are only looked at by `currentOptions`. -/
theorem looks_currentOptions : Looks currentOptions :=
  (Change.looks_look _).bind fun _ => Change.looks_lift _

/-- The operation `runAlterAttributeOption` leaves the record on its way in normal form where it
fails. -/
theorem failsTo_alterAttributeOption (hw : w.IsSound) :
    FailsTo Working.toValue (runAlterAttributeOption ps) w (LeftIn ps SettlesRecord w) := by
  refine failsTo_locate hw fun base key r hb _ => failsTo_inAttribute hb key ?_
  refine looks_currentOptions.bind_failsClean fun current => ?_
  refine (Change.looks_lift _).bind_failsClean fun given => ?_
  exact (Change.looks_lift _).bind_failsClean fun changed => Change.failsClean_write _ _

/-- The operation `runDropAttributeOption` leaves the record on its way in normal form where it
fails. -/
theorem failsTo_dropAttributeOption (hw : w.IsSound) :
    FailsTo Working.toValue (runDropAttributeOption ps) w (LeftIn ps SettlesRecord w) := by
  refine failsTo_locate hw fun base key r hb _ => failsTo_inAttribute hb key ?_
  refine looks_currentOptions.bind_failsClean fun current => ?_
  exact (Change.looks_lift _).bind_failsClean fun option => Change.failsClean_write _ _

/-! ## Rules -/

/-- A collection that has rules now, if it had none. `G` says what became of its rules. -/
def RulesLeft (G : List (String × Value) → List (String × Value) → Prop)
    (c c' : WorkingCollection) : Prop :=
  c' = c ∨ ∃ rules, G (c.rules.getD []) rules ∧ c' = { c with rules := some rules }

/-- The rules as they are, or with the scope that the parameters name, which is new and holds no
rules. -/
def OpensScope (ps : Parameters) (rules rules' : List (String × Value)) : Prop :=
  rules' = rules ∨ ∃ scope, ps.nameOf "scope" = .ok scope ∧
    Entries.get? scope rules = none ∧ rules' = Entries.put scope (.mapping []) rules

/-- What a failing change leaves of the rules of a collection is left in the collection, which has
rules then. -/
theorem failsTo_inRules {change : Change Refusal Unit} {c : WorkingCollection} (hc : c.IsSound)
    {G : List (String × Value) → List (String × Value) → Prop}
    (h : FailsTo Value.record change (c.rules.getD []) (G (c.rules.getD []))) :
    FailsTo WorkingCollection.toValue (inRules change) c (RulesLeft G c) := by
  refine FailsTo.bind ((Change.failsClean_writeNew _ _).failsTo.mono fun c' hc' => .inl hc')
    (does_writeNewRules c) hc ?_
  rintro - _ rfl -
  have hput : ∀ rules, withPart "rules" (.record rules)
      (WorkingCollection.toValue { c with rules := some (c.rules.getD []) })
        = WorkingCollection.toValue { c with rules := some rules } := fun rules => by
    rw [WorkingCollection.toValue, Value.withPart_record]
    rfl
  refine FailsTo.mono (Change.failsTo_within h ?_ hput) ?_
  · rw [WorkingCollection.toValue, Value.get_record]
    rfl
  · rintro _ ⟨rules, hG, rfl⟩
    exact .inr ⟨rules, hG, rfl⟩

/-- Where a rule cannot be put into its scope, the scope is left as it is: everything that is
refused is so before the only write. -/
theorem failsTo_writeRule (v : Value) : FailsTo id (do
    if !(← get).isMapping then .fail .scopeNotMapping
    let rule ← ps.required "rule"
    .write (← ps.nameOf "id") rule : Change Refusal Unit) v fun v' => v' = v := by
  refine FailsClean.failsTo ?_
  refine Change.looks_get.bind_failsClean fun v => ?_
  refine Change.failsClean_unless ?_
  refine (Change.looks_lift _).bind_failsClean fun rule => ?_
  exact (Change.looks_lift _).bind_failsClean fun id => Change.failsClean_write _ _

/-- A scope that was made where there was none is a new one without rules. -/
theorem opensScope_of_put {scope : String} {old rules : List (String × Value)}
    (hscope : ps.nameOf "scope" = .ok scope)
    (hget : Entries.get? scope rules = some ((Entries.get? scope old).getD (.mapping [])))
    (hput : ∀ v, Entries.put scope v rules = Entries.put scope v old) :
    OpensScope ps old rules := by
  -- only what is under the scope may differ, so it decides which of the two cases it is
  have hrules := (Entries.put_of_get? hget).symm.trans (hput _)
  cases hold : Entries.get? scope old with
  | none =>
    rw [hold, Option.getD_none] at hrules
    exact .inr ⟨scope, hscope, hold, hrules⟩
  | some v =>
    rw [hold, Option.getD_some, Entries.put_of_get? hold] at hrules
    exact .inl hrules

/-- The operation `runAddRule` may leave rules without scopes, or a scope without rules, where it
fails. -/
theorem failsTo_addRule (hw : w.IsSound) :
    FailsTo Working.toValue (runAddRule ps) w (LeftIn ps (RulesLeft (OpensScope ps)) w) := by
  refine failsTo_inNamed (fun c hc => failsTo_inRules hc ?_) hw
  refine FailsTo.bind_looks (Change.looks_lift _) (.inl rfl) fun scope hscope => ?_
  rw [Change.runOn_lift] at hscope
  -- Until the scope is written nothing is left behind; from then on an empty scope may be.
  refine FailsTo.bind ((Change.failsClean_writeNew _ _).failsTo.mono fun rules h => .inl h)
    (does_writeNewScope scope _) ?_ ?_
  · cases hrules : c.rules with
    | none => exact List.nodup_nil
    | some rules => exact hc.rules rules hrules
  · rintro - rules ⟨hget, hput⟩ -
    refine FailsTo.mono (Change.failsTo_within (failsTo_writeRule
      ((Entries.get? scope (c.rules.getD [])).getD (.mapping []))) ?_
        fun v => Value.withPart_record) ?_
    · rw [Value.item_record hget]
      rfl
    · rintro _ ⟨_, rfl, rfl⟩
      rw [id, Entries.put_of_get? hget]
      exact opensScope_of_put hscope hget hput

/-- Where a rule cannot be taken away, the rules of the collection are left as they are. -/
theorem failsClean_removeRule (scope : String) : FailsClean (removeRule ps scope) := by
  refine (Change.looks_look _).bind_failsClean fun found => ?_
  refine Change.failsClean_unless ?_
  refine (Change.looks_lift _).bind_failsClean fun id => ?_
  refine (Change.looks_access _).bind_failsClean fun left => ?_
  split
  · exact Change.failsClean_write _ _
  · exact Change.failsClean_discard _

/-- Taking away rules without scopes, the last part of `drop_rule`, does not fail. -/
theorem failsTo_dropEmptyRules (record : WorkingRecord) (rules : List (String × Value))
    {Q : WorkingCollection → Prop} : FailsTo WorkingCollection.toValue
      (do if !(← .look "rules").isTruthy then .discard "rules") ⟨record, some rules⟩ Q := by
  cases rules with
  | nil => exact Change.failsTo_of_runOn_eq_ok (a := ()) rfl
  | cons rule rules => exact Change.failsTo_of_runOn_eq_ok (a := ()) rfl

/-- The operation `runDropRule` may leave rules without scopes where it fails, and takes no rule
away. -/
theorem failsTo_dropRule (hw : w.IsSound) :
    FailsTo Working.toValue (runDropRule ps) w (LeftIn ps (RulesLeft (· = ·)) w) := by
  refine failsTo_inNamed (fun c hc => ?_) hw
  refine FailsTo.bind_looks (Change.looks_lift _) (.inl rfl) fun scope _ => ?_
  refine FailsTo.bind (failsTo_inRules hc ((failsClean_removeRule scope).failsTo.mono
    fun rules h => h.symm)) (does_inRules (does_removeRule scope _)) hc ?_
  rintro - _ ⟨rules, -, rfl⟩ -
  exact failsTo_dropEmptyRules c.record rules

/-! ## All operations -/

/-- What an operation that fails leaves of a working state. Collections are made and taken away at
once or not at all; the other operations may leave a collection in the form that they need. -/
def Abandons (ps : Parameters) (w w' : Working) : Operation → Prop
  | createCollection => w' = w
  | dropCollection => w' = w
  | addAttribute => LeftIn ps SettlesRecord w w'
  | dropAttribute => LeftIn ps SettlesRecord w w'
  | alterAttributeOption => LeftIn ps SettlesRecord w w'
  | dropAttributeOption => LeftIn ps SettlesRecord w w'
  | setAttributeOptional => LeftIn ps SettlesRecord w w'
  | addRule => LeftIn ps (RulesLeft (OpensScope ps)) w w'
  | dropRule => LeftIn ps (RulesLeft (· = ·)) w w'

/-- A change of the collections of a state that `FailsClean` leaves the state as it was where it
fails. -/
theorem failsTo_inCollections_of_failsClean {change : Change Refusal α} (h : FailsClean change) :
    FailsTo Working.toValue (.inItem "collections" change) w fun w' => w' = w := by
  refine FailsTo.mono (Working.failsTo_inCollections h.failsTo) ?_
  rintro _ ⟨_, rfl, rfl⟩
  rfl

/-- A collection that cannot be made leaves nothing behind: it is put together before anything is
written. -/
theorem failsTo_createCollection :
    FailsTo Working.toValue (runCreateCollection ps) w fun w' => w' = w := by
  refine FailsTo.bind_looks (Change.looks_lift _) rfl fun name _ => ?_
  refine failsTo_inCollections_of_failsClean ?_
  refine (Change.looks_holds _).bind_failsClean fun _ => ?_
  refine Change.failsClean_unless ?_
  refine (Change.looks_lift _).bind_failsClean fun properties => ?_
  refine (Change.looks_lift _).bind_failsClean fun optional => ?_
  dsimp only
  split
  · exact Change.failsClean_write _ _
  · exact (Change.looks_lift _).bind_failsClean fun rules => Change.failsClean_write _ _

/-- A collection that cannot be taken away stays, and the state with it. -/
theorem failsTo_dropCollection :
    FailsTo Working.toValue (runDropCollection ps) w fun w' => w' = w := by
  refine FailsTo.bind_looks (Change.looks_lift _) rfl fun name _ => ?_
  refine failsTo_inCollections_of_failsClean ?_
  refine Change.looks_get.bind_failsClean fun _ => ?_
  exact (Change.looks_lift _).bind_failsClean fun _ => Change.failsClean_erase _

/-- Every operation leaves of a sound state what `Abandons` says, where it fails. There is one case
for each of the nine. -/
theorem failsTo_run (op : Operation) (hw : w.IsSound) :
    FailsTo Working.toValue (op.run ps) w fun w' => op.Abandons ps w w' := by
  cases op with
  | createCollection => exact failsTo_createCollection
  | dropCollection => exact failsTo_dropCollection
  | addAttribute => exact failsTo_addAttribute hw
  | dropAttribute => exact failsTo_dropAttribute hw
  | alterAttributeOption => exact failsTo_alterAttributeOption hw
  | dropAttributeOption => exact failsTo_dropAttributeOption hw
  | setAttributeOptional => exact failsTo_setAttributeOptional hw
  | addRule => exact failsTo_addRule hw
  | dropRule => exact failsTo_dropRule hw

/-! ## The records of all collections -/

section EachRecord

variable {w' : Working} {Q : WorkingRecord → Prop}

/-- What is left in a collection keeps a property of records, if the record of the collection keeps
it. -/
theorem LeftIn.eachRecord {G : WorkingCollection → WorkingCollection → Prop}
    (hG : ∀ c c', G c c' → Q c.record → Q c'.record) (h : LeftIn ps G w w')
    (hw : EachRecord Q w) : EachRecord Q w' := by
  rcases h with rfl | ⟨name, c, c', -, hget, hleft, rfl⟩
  · exact hw
  · exact EachRecord.put hw (hG c c' hleft (hw _ (Entries.mem_of_get? hget)))

/-- All records keep a property where an operation fails, if records keep it that are left in their
normal form along a path. -/
theorem Abandons.eachRecord {op : Operation} (hQ : ∀ r r', Settles r r' → Q r → Q r')
    (h : op.Abandons ps w w') (hw : EachRecord Q w) : EachRecord Q w' := by
  have hrecord : ∀ c c', SettlesRecord c c' → Q c.record → Q c'.record := by
    rintro c _ ⟨r, hr, rfl⟩ hc
    exact hQ c.record r hr hc
  have hrules : ∀ G c c', RulesLeft G c c' → Q c.record → Q c'.record := by
    rintro G c _ (rfl | ⟨rules, -, rfl⟩) hc
    · exact hc
    · exact hc
  cases op with
  | createCollection => exact h ▸ hw
  | dropCollection => exact h ▸ hw
  | addRule => exact LeftIn.eachRecord (hrules _) h hw
  | dropRule => exact LeftIn.eachRecord (hrules _) h hw
  | _ => exact LeftIn.eachRecord hrecord h hw

end EachRecord

end Operation

namespace Migration

/-- A step that fails leaves the state as it was, if it denotes no operation, and otherwise what its
operation leaves. -/
theorem failsTo_runStep (step : Value) {w : Working} (hw : w.IsSound) :
    FailsTo Working.toValue (runStep step) w fun w' =>
      w' = w ∨ ∃ op ps, Denotes step op ps ∧ op.Abandons ps w w' := by
  refine FailsTo.bind_looks (Change.looks_lift _) (.inl rfl) ?_
  rintro ⟨name, parameters⟩ hparts
  refine FailsTo.bind_looks (Change.looks_lift _) (.inl rfl) ?_
  rintro ⟨s, op⟩ hop
  dsimp only
  cases hps : parameters.entries? with
  | none =>
    exact (Change.looks_fail _).failsClean.failsTo.mono fun w' hw' => .inl hw'
  | some ps =>
    exact (Operation.failsTo_run op hw).mono fun w' h =>
      .inr ⟨op, ps, ⟨name, parameters, s, hparts, hop, hps⟩, h⟩

end Migration

end SchemaForge
