import SchemaForge.Migration.Error

/-!
# Changes

A `Change` works on one value; the operations of section 6.1 of the specification are changes of the
working state. It may fail midway, and then what it has done so far stays done. `within` runs a
change on a part of the value and puts the part back whether or not the change fails; it is the only
way in which a change reaches below the top of its value.
-/

namespace SchemaForge

/-- A change of a value, which gives a result or fails. It is a state below the failures, so that
what was done before a failure stays done. -/
abbrev Change (ε α : Type) := ExceptT (Failure ε) (StateM Value) α

namespace Change

/-- The result of a change on a value, and the value after it, whether it has failed or not. -/
def runOn (change : Change ε α) (v : Value) : Outcome ε α × Value := change.run v

/-- What needs no change of the value, and leaves it as it is. -/
def ofOutcome (x : Outcome ε α) : Change ε α := ExceptT.mk (pure x)

/-- What has an outcome without a look at the value is a change too. -/
instance : MonadLift (Except (Failure ε)) (ExceptT (Failure ε) (StateM Value)) := ⟨ofOutcome⟩

/-- Fails and leaves the value as it is. -/
def fail (cause : ε) : Change ε α := ofOutcome (refuse cause)

/-- The value with `x` in the place of the part under a name; only mappings have parts, and anything
else stays. -/
def withPart (name : String) (x : Value) (v : Value) : Value :=
  match v.put name x with
  | .ok changed => changed
  | .error _ => v

/-- Runs a change on the part of the value that `part` finds under a name, and puts the part back
whether or not the change fails. -/
def within (name : String) (part : Value → Outcome ε Value) (change : Change ε α) : Change ε α :=
  fun v =>
    match part v with
    | .error failure => (.error failure, v)
    | .ok x =>
      let (result, x) := change.runOn x
      (result, withPart name x v)

/-- Runs a change on the part under a name, which has to be there; otherwise it breaks down as
`Value.item` does. -/
def inItem (name : String) (change : Change ε α) : Change ε α :=
  within name (fun v => v.item name) change

/-- What the value has under a name, absent if there is nothing. -/
def look (name : String) : Change ε Value := do (← get).get name

/-- Whether the value has something under a name. -/
def holds (name : String) : Change ε Bool := do (← get).contains name

/-- Puts `x` under a name. -/
def write (name : String) (x : Value) : Change ε Unit := do set (← (← get).put name x)

/-- Takes away what is under a name, which has to be there. -/
def erase (name : String) : Change ε Unit := do set (← (← get).delete name)

/-- Takes away what is under a name, if there is something. -/
def discard (name : String) : Change ε Unit := do set (← (← get).discard name)

/-- Puts `x` under a name unless there is something already, be it the absent value. -/
def writeNew (name : String) (x : Value) : Change ε Unit := do
  match (← get).entries? with
  | some entries => if Entries.has (.str name) entries then pure () else write name x
  | none => ofOutcome (.error (.broken .noMember))

/-- The change with its own errors seen as errors of another kind; what it does stays the same. -/
def seenAs (f : ε → δ) (change : Change ε α) : Change δ α := fun v =>
  let (result, v) := change.runOn v
  (Outcome.seenAs f result, v)

end Change

end SchemaForge
