import SchemaForge.Migration.Operation
import SchemaForge.Proofs.Outcome

/-!
# What changes do

`Does repr good change x P` says of a change that is run on the value that represents `x`, which
is `good`: it leaves a value that represents something good; it has a result or is refused, but
never breaks down; and with a result `P` holds of it and of what is represented then. Rules that
are no mapping are left out of the reasons for a refusal, since no state has them.
-/

namespace SchemaForge

/-- A result, or a refusal of an operation, but not the one for rules that are no mapping. Nothing
that breaks down is orderly. -/
def IsOrderly : Outcome Refusal α → Prop
  | .ok _ => True
  | .error (.refused cause) => cause ≠ .rulesNotMapping
  | .error (.broken _) => False

/-- A sequence of outcomes is orderly if the first one is, and the second one for every result of
the first. -/
theorem IsOrderly.bind {α β : Type} {x : Outcome Refusal α} {f : α → Outcome Refusal β}
    (hx : IsOrderly x) (hf : ∀ a, IsOrderly (f a)) : IsOrderly (x >>= f) := by
  cases x with
  | ok a => exact hf a
  | error failure => cases failure <;> exact hx

namespace Change

variable {σ τ : Type} {α β : Type} {repr : σ → Value} {good : σ → Prop} {x : σ}

/-- On the value that represents `x`, if `x` is good, the change is orderly and leaves what
represents something good, and with a result `P` holds of the result and of what is represented
then. This is the specification of every change of a working state. -/
def Does (repr : σ → Value) (good : σ → Prop) (change : Change Refusal α) (x : σ)
    (P : α → σ → Prop) : Prop :=
  good x → ∃ y, (change.runOn (repr x)).2 = repr y ∧ good y ∧
    IsOrderly (change.runOn (repr x)).1 ∧ ∀ a, (change.runOn (repr x)).1 = .ok a → P a y

variable {change : Change Refusal α} {f : α → Change Refusal β} {P P' : α → σ → Prop}

/-- A sequence runs its second change on what the first one leaves. Where the first one fails, the
value stays as that one left it. -/
theorem runOn_bind {ε : Type} (change : Change ε α) (f : α → Change ε β) (v : Value) :
    (change >>= f).runOn v = match change.runOn v with
      | (.ok a, w) => (f a).runOn w
      | (.error failure, w) => (.error failure, w) := by
  have h : (change >>= f).runOn v = _ := Outcome.run_bind change f v
  rw [h, runOn]
  rcases change.run v with ⟨failure | a, w⟩ <;> rfl

/-- A sequence has a result exactly when both changes have one, the second one on what the first one
leaves. -/
theorem runOn_bind_eq_ok {ε : Type} {change : Change ε α} {f : α → Change ε β} {v w : Value}
    {b : β} : (change >>= f).runOn v = (.ok b, w) ↔
      ∃ a u, change.runOn v = (.ok a, u) ∧ (f a).runOn u = (.ok b, w) := by
  rw [runOn_bind]
  -- Only the outcome of the first change matters, not what it is.
  generalize change.runOn v = r
  obtain ⟨result, u⟩ := r
  cases result with
  | error failure =>
    constructor
    · intro h
      cases h
    · rintro ⟨a, u', h, -⟩
      cases h
  | ok a =>
    constructor
    · intro h
      exact ⟨a, u, rfl, h⟩
    · rintro ⟨a', u', h, hf⟩
      cases h
      exact hf

/-- A change keeps a property of the value, whether it succeeds or fails. -/
def Keeps {ε : Type} (p : Value → Prop) (change : Change ε α) : Prop :=
  ∀ v, p v → p (change.runOn v).2

/-- What has an outcome without touching the value keeps every property. -/
theorem keeps_ofOutcome {ε : Type} {p : Value → Prop} (x : Outcome ε α) :
    Keeps p (ofOutcome x) := fun _ hv => hv

/-- A sequence keeps what its first change keeps, and its second one with any result of the
first. -/
theorem Keeps.bind {ε : Type} {p : Value → Prop} {change : Change ε α} {f : α → Change ε β}
    (h : Keeps p change) (hf : ∀ a v, (change.runOn v).1 = .ok a → Keeps p (f a)) :
    Keeps p (change >>= f) := by
  intro v hv
  have hfirst := h v hv
  have hsecond := fun a => hf a v
  rw [runOn_bind]
  generalize change.runOn v = r at hfirst hsecond
  obtain ⟨result, u⟩ := r
  cases result with
  | error failure => exact hfirst
  | ok a => exact hsecond a rfl u hfirst

/-- Several changes one after the other keep what each of them keeps, wherever they stop. -/
theorem keeps_forM {ε : Type} {p : Value → Prop} {f : Value → Change ε PUnit} {vs : List Value}
    (hf : ∀ v ∈ vs, Keeps p (f v)) : Keeps p (vs.forM f) := by
  induction vs with
  | nil => exact keeps_ofOutcome (.ok ())
  | cons v vs ih =>
    exact (hf v List.mem_cons_self).bind fun _ _ _ =>
      ih fun w hw => hf w (List.mem_cons_of_mem v hw)

/-- What has an outcome without touching the value has it as its result. -/
theorem runOn_lift {ε : Type} (x : Outcome ε α) (v : Value) :
    (liftM x : Change ε α).runOn v = (x, v) := rfl

/-- A sequence does what its two changes do, where the second one starts from anything that the
first one may leave. -/
theorem Does.bind {P : α → σ → Prop} {P' : β → σ → Prop} (h : Does repr good change x P)
    (hf : ∀ a y, P a y → Does repr good (f a) y P') :
    Does repr good (change >>= f) x P' := by
  intro hx
  obtain ⟨y, hy, hgood, horderly, hpost⟩ := h hx
  rw [runOn_bind]
  generalize change.runOn (repr x) = r at hy horderly hpost
  obtain ⟨result, w⟩ := r
  obtain rfl : w = repr y := hy
  cases result with
  | error failure =>
    refine ⟨y, rfl, hgood, ?_, fun b hb => by cases hb⟩
    cases failure with
    | refused cause => exact horderly
    | broken fault => exact horderly
  | ok a => exact hf a y (hpost a rfl) hgood

/-- What is known of the outcome of a change may be replaced by anything that follows from it. -/
theorem Does.mono (h : Does repr good change x P) (hpost : ∀ a y, P a y → P' a y) :
    Does repr good change x P' := by
  intro hx
  obtain ⟨y, hy, hgood, horderly, h⟩ := h hx
  exact ⟨y, hy, hgood, horderly, fun a ha => hpost a y (h a ha)⟩

/-- A change that is known to have a result and to leave something good does so. -/
theorem does_of_runOn_eq_ok {y : σ} {a : α} (hy : good x → good y)
    (h : change.runOn (repr x) = (.ok a, repr y)) :
    Does repr good change x fun b z => b = a ∧ z = y := by
  intro hx
  rw [h]
  exact ⟨y, rfl, hy hx, trivial, fun b hb => by cases hb; exact ⟨rfl, rfl⟩⟩

/-- A result without a change: the value stays what `repr x` is. -/
theorem does_pure (a : α) : Does repr good (pure a) x fun b y => b = a ∧ y = x :=
  does_of_runOn_eq_ok id rfl

/-- What has an orderly outcome without touching the value does nothing but that. -/
theorem does_lift {outcome : Outcome Refusal α} (h : IsOrderly outcome) :
    Does repr good (liftM outcome) x fun a y => outcome = .ok a ∧ y = x :=
  fun hx => ⟨x, rfl, hx, h, fun _ ha => ⟨ha, rfl⟩⟩

/-- An access that finds something has it as its result, and leaves the value as it is. -/
theorem does_access {access : Except Fault α} {a : α} (h : access = .ok a) :
    Does repr good (liftM access) x fun b y => b = a ∧ y = x := by
  rw [h]
  exact does_of_runOn_eq_ok id rfl

/-- A refusal with `fail` changes nothing. It is orderly unless it is the one for rules that are no
mapping, which no sound state leads to. -/
theorem does_fail {cause : Refusal} (h : cause ≠ .rulesNotMapping) :
    Does repr good (fail cause) x P :=
  fun hx => ⟨x, rfl, hx, h, fun a ha => by cases ha⟩

/-- What goes on unless a refusal comes first does what it does in the case that there is no
refusal. -/
theorem does_unless {b : Bool} {cause : Refusal} {rest : Unit → Change Refusal α}
    (hcause : cause ≠ .rulesNotMapping) (h : b = false → Does repr good (rest ()) x P) :
    Does repr good (if b = true then fail cause >>= rest else rest ()) x P := by
  cases b with
  | true => exact Does.bind (P := fun _ _ => False) (does_fail hcause) fun _ _ h => h.elim
  | false => exact h rfl

/-- Looking at the whole value gives `repr x` and changes nothing. -/
theorem does_get : Does repr good get x fun v y => v = repr x ∧ y = x :=
  does_of_runOn_eq_ok id rfl

/-! ## Access by name -/

variable {name : String} {v w : Value} {y : σ}

/-- A look at a part gives what `get` gives, and leaves the value as it is. -/
theorem runOn_look {ε : Type} : (look name : Change ε Value).runOn v
    = (liftM (v.get name), v) := rfl

/-- The step `look` gives the part under a name, and leaves the value as it is. -/
theorem does_look (h : (repr x).get name = .ok v) :
    Does repr good (look name) x fun a y => a = v ∧ y = x :=
  does_of_runOn_eq_ok id (by rw [runOn_look, h]; rfl)

/-- The step `holds` tells whether there is a part, and leaves the value as it is. -/
theorem does_holds {b : Bool} (h : (repr x).contains name = .ok b) :
    Does repr good (holds name) x fun a y => a = b ∧ y = x := by
  have hrun : (holds name : Change Refusal Bool).runOn (repr x)
      = (liftM ((repr x).contains name), repr x) := rfl
  exact does_of_runOn_eq_ok id (by rw [hrun, h]; rfl)

/-- In a change that replaces the value, `g` works out the new value first; where it succeeds the
change is done. -/
theorem runOn_replace {ε : Type} {g : Value → Except Fault Value} (h : g v = .ok w) :
    (do set (← liftM (g (← get))) : Change ε Unit).runOn v = (.ok (), w) := by
  have hrun : (do set (← liftM (g (← get))) : Change ε Unit).runOn v
      = ((do set (← liftM (g v)) : Change ε Unit)).runOn v := rfl
  rw [hrun, h]
  rfl

/-- The step `write` puts a part into the value. -/
theorem does_write (hy : good x → good y) (h : (repr x).put name v = .ok (repr y)) :
    Does repr good (write name v) x fun _ z => z = y :=
  (does_of_runOn_eq_ok hy (runOn_replace (g := fun w => w.put name v) h)).mono fun _ _ h => h.2

/-- The step `erase` takes a part away that has to be there. -/
theorem does_erase (hy : good x → good y) (h : (repr x).delete name = .ok (repr y)) :
    Does repr good (erase name) x fun _ z => z = y :=
  (does_of_runOn_eq_ok hy (runOn_replace (g := fun w => w.delete name) h)).mono fun _ _ h => h.2

/-- The step `discard` takes a part away, if it is there. -/
theorem does_discard (hy : good x → good y) (h : (repr x).discard name = .ok (repr y)) :
    Does repr good (discard name) x fun _ z => z = y :=
  (does_of_runOn_eq_ok hy (runOn_replace (g := fun w => w.discard name) h)).mono fun _ _ h => h.2

/-- The step `writeNew` puts a part where there is nothing, and changes nothing otherwise. -/
theorem runOn_writeNew {es : List (Scalar × Value)} (hw : w.entries? = some es) :
    (writeNew name v : Change Refusal Unit).runOn w
      = if Entries.has (.str name) es then (.ok (), w) else (write name v).runOn w := by
  have hget : (get : Change Refusal Value).runOn w = (.ok w, w) := rfl
  unfold writeNew
  rw [runOn_bind, hget]
  dsimp only
  rw [hw]
  dsimp only
  split
  · rfl
  · rfl

/-- Where there is a part under the name, `writeNew` leaves everything as it is. -/
theorem does_writeNew_of_has {es : List (Scalar × Value)}
    (hv : (repr x).entries? = some es) (h : Entries.has (.str name) es = true) :
    Does repr good (writeNew name v) x fun _ z => z = x := by
  refine (does_of_runOn_eq_ok (a := ()) id ?_).mono fun _ _ h => h.2
  rw [runOn_writeNew hv, if_pos h]

/-- Where there is no part under the name, `writeNew` puts the value there as `put` does. -/
theorem does_writeNew_of_not_has (hy : good x → good y) {es : List (Scalar × Value)}
    (hv : (repr x).entries? = some es) (hnew : Entries.has (.str name) es = false)
    (h : (repr x).put name v = .ok (repr y)) :
    Does repr good (writeNew name v) x fun _ z => z = y := by
  refine (does_of_runOn_eq_ok (a := ()) hy ?_).mono fun _ _ h => h.2
  rw [runOn_writeNew hv, if_neg (by rw [hnew]; exact Bool.false_ne_true)]
  exact runOn_replace (g := fun w => w.put name v) h

/-! ## Parts -/

section Part

variable {repr' : τ → Value} {good' : τ → Prop} {part : Value → Outcome Refusal Value}
  {P' : α → τ → Prop}

/-- A change of a part runs on what the part is. What it leaves of the part is put back, also where
it fails. -/
theorem runOn_within (v : Value) : (within name part change).runOn v = match part v with
    | .error failure => (.error failure, v)
    | .ok w => ((change.runOn w).1, withPart name (change.runOn w).2 v) := by
  unfold within
  cases hpart : part v with
  | error failure => simp only [runOn, ExceptT.run, hpart]
  | ok w => simp only [runOn, ExceptT.run, hpart]

/-- A change of a part is a change of the whole, if whatever it leaves of the part can be put
back. -/
theorem does_within {y : τ} {back : τ → σ} (h : Does repr' good' change y P')
    (hpart : part (repr x) = .ok (repr' y)) (hy : good x → good' y)
    (hput : ∀ z, withPart name (repr' z) (repr x) = repr (back z))
    (hback : ∀ z, good x → good' z → good (back z)) :
    Does repr good (within name part change) x fun a w =>
      ∃ z, good' z ∧ P' a z ∧ w = back z := by
  intro hx
  obtain ⟨z, hz, hgood, horderly, hpost⟩ := h (hy hx)
  rw [runOn_within, hpart]
  dsimp only
  rw [hz]
  exact ⟨back z, hput z, hback z hx hgood, horderly, fun a ha => ⟨z, hgood, hpost a ha, rfl⟩⟩

/-- Where there is no such part the change is refused, and nothing is put back. -/
theorem does_within_of_refused {cause : Refusal} (hpart : part (repr x) = refuse cause)
    (h : cause ≠ .rulesNotMapping) : Does repr good (within name part change) x P := by
  intro hx
  rw [runOn_within, hpart]
  exact ⟨x, rfl, hx, h, fun a ha => by cases ha⟩

/-- A change may be seen as one of another kind of thing, if both are represented by the same
values. -/
theorem Does.along {y : τ} {back : τ → σ} (h : Does repr' good' change y P')
    (hy : repr' y = repr x) (hgood : good x → good' y) (hrepr : ∀ z, repr' z = repr (back z))
    (hback : ∀ z, good' z → good (back z)) :
    Does repr good change x fun a w => ∃ z, good' z ∧ P' a z ∧ w = back z := by
  intro hx
  obtain ⟨z, hz, hgood, horderly, hpost⟩ := h (hgood hx)
  rw [← hy]
  exact ⟨back z, hz.trans (hrepr z), hback z hgood, horderly,
    fun a ha => ⟨z, hgood, hpost a ha, rfl⟩⟩

end Part

end Change

end SchemaForge
