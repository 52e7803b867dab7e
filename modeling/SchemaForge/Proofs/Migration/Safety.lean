import SchemaForge.Migration.Replay
import SchemaForge.Proofs.Migration.Operation

/-!
# Safety of migrations

Every state to which migrations lead is that of a sound `Working`, whether the migrations succeed or
fail midway (`Reachable.isWorking`). On such a state a step succeeds or is refused, and never breaks
down (`reachable_step_safe`): what section 6.1 of the specification says of unknown operations and
missing collections holds of everything that can be wrong with a step.
-/

namespace SchemaForge.Migration

open Change (Does Keeps)

/-- The states to which migrations lead from the empty one. A migration that fails leaves what it
has done so far, and the next one runs on that. -/
inductive Reachable : Value → Prop
  /-- The state before all migrations. -/
  | empty : Reachable emptyState
  /-- What a migration leaves. -/
  | apply {state : Value} (migration : Value) (h : Reachable state) :
      Reachable ((apply migration).runOn state).2

/-! ## Steps -/

/-- A step denotes an operation with its parameters: it names one of the nine, and has a mapping or
nothing as parameters. -/
def Denotes (step : Value) (op : Operation) (ps : Parameters) : Prop :=
  ∃ name parameters s, stepParts step = .ok (name, parameters) ∧
    operationOf name = .ok (s, op) ∧ parameters.entries? = some ps

/-- A step denotes one operation with one set of parameters at most, so that what is proved of
`Denotes` is proved of the step. -/
theorem Denotes.unique {step : Value} {op op' : Operation} {ps ps' : Parameters}
    (h : Denotes step op ps) (h' : Denotes step op' ps') : op = op' ∧ ps = ps' := by
  obtain ⟨name, parameters, s, hparts, hop, hps⟩ := h
  obtain ⟨name', parameters', s', hparts', hop', hps'⟩ := h'
  cases hparts.symm.trans hparts'
  cases hop.symm.trans hop'
  cases hps.symm.trans hps'
  exact ⟨rfl, rfl⟩

/-- A step is taken apart by `stepParts` into a name and parameters, or refused. -/
theorem isOrderly_stepParts (step : Value) : IsOrderly (stepParts step) := by
  unfold stepParts
  split
  · exact Refusal.noConfusion
  · exact trivial
  · exact Refusal.noConfusion

/-- Looking an operation up by its name gives one or refuses the name, and never breaks down. -/
theorem isOrderly_operationOf (name : Value) : IsOrderly (operationOf name) := by
  unfold operationOf
  split
  · split
    · exact trivial
    · exact Refusal.noConfusion
  · exact Refusal.noConfusion

/-- A step is orderly on every sound state. If it succeeds, it leads to the state of the operation
that it denotes. -/
theorem does_runStep (step : Value) (w : Working) :
    Does Working.toValue Working.IsSound (runStep step) w fun _ w' =>
      ∃ op ps, Denotes step op ps ∧ op.Leads ps w w' := by
  refine Does.bind (Change.does_lift (isOrderly_stepParts step)) ?_
  rintro ⟨name, parameters⟩ w ⟨hparts, rfl⟩
  refine Does.bind (Change.does_lift (isOrderly_operationOf name)) ?_
  rintro ⟨s, op⟩ w ⟨hop, rfl⟩
  dsimp only
  cases hps : parameters.entries? with
  | none => exact Change.does_fail (by simp)
  | some ps =>
    exact (Operation.does_run op).mono fun _ _ h =>
      ⟨op, ps, ⟨name, parameters, s, hparts, hop, hps⟩, h⟩

/-- A step that succeeds on a sound state denotes an operation, and leads to a sound state of that
operation. -/
theorem exists_leads_of_runStep {step v : Value} {w : Working} (hw : w.IsSound)
    (h : (runStep step).runOn w.toValue = (.ok (), v)) :
    ∃ op ps w', Denotes step op ps ∧ op.Leads ps w w' ∧ w'.IsSound ∧ v = w'.toValue := by
  obtain ⟨w', hstate, hw', -, hleads⟩ := does_runStep step w hw
  rw [h] at hstate hleads
  obtain ⟨op, ps, hd, hop⟩ := hleads () rfl
  exact ⟨op, ps, w', hd, hop, hw', hstate⟩

/-! ## Migrations -/

variable {ε α : Type}

/-- The value is that of a sound `Working`. -/
def IsSoundState (v : Value) : Prop := ∃ w : Working, w.IsSound ∧ v = w.toValue

/-- The function `seenAs` turns errors of a change into others, and leaves the value that it
leaves. -/
theorem runOn_seenAs {δ : Type} (f : ε → δ) (change : Change ε α) (v : Value) :
    (change.seenAs f).runOn v = (Outcome.seenAs f (change.runOn v).1, (change.runOn v).2) := rfl

/-- Seen as other errors, a change succeeds where it does without that. -/
theorem runOn_of_runOn_seenAs {δ : Type} {f : ε → δ} {change : Change ε α} {v v' : Value} {a : α}
    (h : (change.seenAs f).runOn v = (.ok a, v')) : change.runOn v = (.ok a, v') := by
  rw [runOn_seenAs] at h
  generalize change.runOn v = r at h ⊢
  obtain ⟨result, u⟩ := r
  cases result with
  | ok b =>
    cases h
    rfl
  | error failure => cases failure <;> cases h

/-- A migration writes its version into the state when all its steps have succeeded. -/
theorem runOn_writeVersion (w : Working) (n : Int) :
    (Change.write "version" (.int n) : Change ε Unit).runOn w.toValue
      = (.ok (), Working.toValue { w with version := n }) :=
  Change.runOn_replace (g := fun v => v.put "version" (.int n)) Value.put_record

/-- The steps of a migration leave a sound state, wherever they stop. This is the run of which
`does_runStep` says the single step. -/
theorem keepsSound_steps (version : Int) (steps : List Value) :
    Keeps IsSoundState (steps.forM fun step => (runStep step).seenAs
      fun cause => (⟨cause, some version, none⟩ : MigrationError)) := by
  refine Change.keeps_forM fun step _ => ?_
  rintro _ ⟨w, hw, rfl⟩
  obtain ⟨w', hrun, hw', -⟩ := does_runStep step w hw
  exact ⟨w', hw', hrun⟩

/-- A migration leaves a sound state (`IsSoundState`), whether `apply` succeeds or fails. -/
theorem keepsSound_apply (migration : Value) : Keeps IsSoundState (apply migration) := by
  refine (Change.keeps_ofOutcome _).bind fun version _ _ => ?_
  refine (Change.keeps_ofOutcome _).bind fun up _ _ => ?_
  refine (Change.keeps_ofOutcome _).bind fun steps _ _ => ?_
  refine (keepsSound_steps version steps).bind fun _ _ _ => ?_
  rintro _ ⟨w, hw, rfl⟩
  exact ⟨{ w with version := version }, hw, by rw [runOn_writeVersion]⟩

/-- A state to which migrations lead is the value of a sound `Working`. The induction is on the
migrations, with `keepsSound_apply` as its step. -/
theorem Reachable.isWorking {state : Value} (h : Reachable state) :
    ∃ w : Working, w.IsSound ∧ state = w.toValue := by
  induction h with
  | empty => exact ⟨⟨0, []⟩, ⟨List.nodup_nil, fun _ h => by cases h⟩, rfl⟩
  | apply migration _ ih =>
    exact keepsSound_apply migration _ ih

/-! ## One step -/

/-- The migration to a version by one step, as a document gives it, with its steps under `up`. -/
def oneStep (version step : Value) : Value :=
  .record [("version", version), ("up", .list [step])]

/-- A success, or a refusal that carries the version of the migration and is not about rules that
are no mapping. Nothing that breaks down is safe. -/
def IsSafe (version : Int) (result : Outcome MigrationError Unit) : Prop :=
  result = .ok () ∨
    ∃ cause, cause ≠ Refusal.rulesNotMapping ∧ result = refuse ⟨cause, some version, none⟩

/-- A migration to what is no version fails before its first step, and leaves the state as it
was. -/
theorem exists_failure_of_apply {version : Value} {fault : Fault}
    (h : version.toInt = .error fault) : ∃ failure : Failure MigrationError, ∀ step state,
      (apply (oneStep version step)).runOn state = (.error failure, state) := by
  have hversion : ∃ failure, ∀ step, versionOf (oneStep version step) = .error failure := by
    have hfield : ∀ step, Value.field? "version"
        (textEntries [("version", version), ("up", .list [step])]) = some version :=
      fun step => textEntries.get?.trans rfl
    unfold versionOf oneStep
    simp only [Value.entries?_record, hfield, h]
    cases fault <;> exact ⟨_, fun _ => rfl⟩
  obtain ⟨failure, hversion⟩ := hversion
  refine ⟨failure, fun step state => ?_⟩
  rw [apply, hversion]
  rfl

/-- A migration by one step takes the step, and gives the state its version if the step has
succeeded. -/
theorem runOn_apply_oneStep {version : Value} {n : Int} (h : version.toInt = .ok n)
    (step state : Value) : (apply (oneStep version step)).runOn state
      = ((runStep step).seenAs (⟨·, some n, none⟩) >>= fun _ =>
        .write "version" (.int n) : Change MigrationError Unit).runOn state := by
  have hversion : versionOf (oneStep version step) = .ok n := by
    have hfield : Value.field? "version" (textEntries [("version", version), ("up", .list [step])])
        = some version := textEntries.get?.trans rfl
    unfold versionOf oneStep
    rw [Value.entries?_record]
    dsimp only
    rw [hfield]
    dsimp only
    rw [h]
  have hup : (oneStep version step).get "up" = .ok (.list [step]) := Value.get_record
  unfold apply
  rw [hversion, hup]
  -- the loop over one step ends with a step that does nothing
  show ((((runStep step).seenAs (⟨·, some n, none⟩) >>= fun _ => pure PUnit.unit) >>= fun _ =>
    .write "version" (.int n)) : Change MigrationError Unit).runOn state = _
  generalize (Change.seenAs (fun cause => (⟨cause, some n, none⟩ : MigrationError))
    (runStep step)) = taken
  rw [Change.runOn_bind, Change.runOn_bind, Change.runOn_bind]
  generalize taken.runOn state = r
  obtain ⟨result, v⟩ := r
  cases result <;> rfl

/-- On every state to which migrations lead, a step succeeds or is refused with the version of its
migration, as section 7 of the specification has it. The state is the value of a sound `Working`, so
that the next step starts from such a state again. -/
theorem reachable_step_safe {state : Value} (h : Reachable state) :
    (∃ w : Working, w.IsSound ∧ state = w.toValue) ∧
      ∀ version step n, version.toInt = .ok n →
        IsSafe n ((apply (oneStep version step)).runOn state).1 := by
  obtain ⟨w, hw, rfl⟩ := h.isWorking
  refine ⟨⟨w, hw, rfl⟩, fun version step n hn => ?_⟩
  obtain ⟨w', hrun, -, horderly, -⟩ := does_runStep step w hw
  rw [runOn_apply_oneStep hn, Change.runOn_bind, runOn_seenAs]
  generalize (runStep step).runOn w.toValue = r at hrun horderly
  obtain ⟨result, v⟩ := r
  obtain rfl : v = w'.toValue := hrun
  -- The version is written only where the step succeeds, and its error is worded with it otherwise.
  cases result with
  | ok =>
    refine .inl ?_
    show ((Change.write "version" (.int n)).runOn w'.toValue).1 = .ok ()
    rw [runOn_writeVersion]
  | error failure =>
    cases failure with
    | refused cause => exact .inr ⟨cause, horderly, rfl⟩
    | broken fault => exact horderly.elim

/-- The collection that the first step makes is there when the second one, which is no step, is
refused. -/
theorem reachable_step_safe_notes :
    let made := ((apply (oneStep (.int 1)
      (.list [.str "create_collection", .record [("name", .str "notes")]]))).runOn emptyState).2
    made = Working.toValue ⟨1, [("notes", ⟨⟨[], []⟩, none⟩)]⟩ ∧
      IsSafe 2 ((apply (oneStep (.int 2) (.str "drop_collection"))).runOn made).1 :=
  ⟨rfl, (reachable_step_safe (.apply _ .empty)).2 (.int 2) (.str "drop_collection") 2 rfl⟩

end SchemaForge.Migration
