import SchemaForge.Report

/-!
# Outcomes of several steps

A sequence of steps has a result exactly when each of its steps has one, and it breaks down only
where one of them does (`IsAnnounced.bind`).
-/

namespace SchemaForge.Outcome

variable {ε : Type u} {α β : Type v}

/-- A sequence of two steps has a result exactly when both have: the second one with the result `a`
of the first. -/
theorem bind_eq_ok {x : Except ε α} {f : α → Except ε β} {b : β} :
    x >>= f = .ok b ↔ ∃ a, x = .ok a ∧ f a = .ok b := by
  cases x with
  | error e =>
    constructor
    · intro h
      cases h
    · rintro ⟨a, h, -⟩
      cases h
  | ok a =>
    constructor
    · intro h
      exact ⟨a, rfl, h⟩
    · rintro ⟨a', h, hf⟩
      cases h
      exact hf

/-- Behind a step that has a result, `>>=` goes on with the next one on this result. -/
theorem ok_bind (a : α) (f : α → Except ε β) : Except.ok a >>= f = f a := rfl

/-- The result of `x.map f` is `f` of the result of `x`, and there is no other way to have one. -/
theorem map_eq_ok {x : Except ε α} {f : α → β} {b : β} :
    x.map f = .ok b ↔ ∃ a, x = .ok a ∧ f a = b := by
  cases x with
  | error e =>
    constructor
    · intro h
      cases h
    · rintro ⟨a, h, -⟩
      cases h
  | ok a =>
    constructor
    · intro h
      cases h
      exact ⟨a, rfl, rfl⟩
    · rintro ⟨a', h, rfl⟩
      cases h
      rfl

/-- A result stays one where a step that cannot be refused is part of an operation that can be. -/
theorem lift_ok {ε α : Type} (a : α) :
    (liftM (.ok a : Except Fault α) : Outcome ε α) = .ok a := rfl

/-- A step that only breaks down (`Fault`) gives the same result as part of an operation that can
also refuse. -/
theorem lift_eq_ok {ε α : Type} {x : Except Fault α} {a : α} :
    (liftM x : Outcome ε α) = .ok a ↔ x = .ok a := by
  cases x with
  | error fault =>
    constructor
    · intro h
      cases h
    · intro h
      cases h
  | ok b =>
    constructor
    · intro h
      cases h
      rfl
    · intro h
      cases h
      rfl

/-- The function `Outcome.seenAs` changes errors only, so that an outcome has the result `a` exactly
when it had it before. -/
theorem seenAs_eq_ok {ε δ α : Type} {f : ε → δ} {x : Outcome ε α} {a : α} :
    Outcome.seenAs f x = .ok a ↔ x = .ok a := by
  cases x with
  | error failure =>
    constructor
    · intro h
      cases h
    · intro h
      cases h
  | ok b =>
    constructor
    · intro h
      cases h
      rfl
    · intro h
      cases h
      rfl

/-- Of two steps that may change a state, the second one runs on what the first one leaves. Where
the first one fails, the state that it leaves is that of both. -/
theorem run_bind {ε σ α β : Type} (x : ExceptT ε (StateM σ) α) (f : α → ExceptT ε (StateM σ) β)
    (s : σ) : (x >>= f).run s = match x.run s with
      | (.ok a, s') => (f a).run s'
      | (.error failure, s') => (.error failure, s') := by
  have h : (x >>= f).run s = (ExceptT.bindCont f (x.run s).1 : StateM σ _) (x.run s).2 := rfl
  rw [h]
  generalize x.run s = r
  obtain ⟨result, s'⟩ := r
  cases result <;> rfl

/-! ## Announced outcomes -/

section Announced

variable {ε δ α β : Type} {x : Outcome ε α} {f : α → Outcome ε β}

/-- An outcome is announced if it is a result or an error that the operation names (`refuse`), and
not a `Fault` that it never foresaw. -/
def IsAnnounced (x : Outcome ε α) : Prop := ∀ fault, x ≠ .error (.broken fault)

/-- What is announced is a result or an error of the operation, and there is no third case. -/
theorem IsAnnounced.cases (h : IsAnnounced x) : (∃ a, x = .ok a) ∨ ∃ e, x = refuse e := by
  match x, h with
  | .ok a, _ => exact .inl ⟨a, rfl⟩
  | .error (.refused e), _ => exact .inr ⟨e, rfl⟩
  | .error (.broken fault), h => exact absurd rfl (h fault)

/-- A result is announced, whatever the operation is. -/
theorem isAnnounced_ok (a : α) : IsAnnounced (.ok a : Outcome ε α) := fun _ h => by cases h

/-- A refusal is announced: it is an error that the operation names. -/
theorem isAnnounced_refuse (e : ε) : IsAnnounced (refuse e : Outcome ε α) :=
  fun _ h => by cases h

/-- Two steps are announced if the first one is, and the second one with whatever result the first
may have. -/
theorem IsAnnounced.bind (h : IsAnnounced x) (hf : ∀ a, x = .ok a → IsAnnounced (f a)) :
    IsAnnounced (x >>= f) := by
  cases x with
  | error failure =>
    intro fault heq
    exact h fault (congrArg Except.error (Except.error.inj heq))
  | ok a => exact hf a rfl

/-- Errors that `Outcome.seenAs` turns into others are still announced, since it turns no error into
a fault. -/
theorem IsAnnounced.seenAs (h : IsAnnounced x) (g : ε → δ) : IsAnnounced (Outcome.seenAs g x) := by
  rcases h.cases with ⟨a, rfl⟩ | ⟨e, rfl⟩
  · exact isAnnounced_ok a
  · exact isAnnounced_refuse (g e)

/-- A traversal is announced if each of its steps is: the first step that fails decides, and it is
one of them. -/
theorem isAnnounced_mapM {g : α → Outcome ε β} {xs : List α} (h : ∀ x ∈ xs, IsAnnounced (g x)) :
    IsAnnounced (xs.mapM g) := by
  induction xs with
  | nil => exact isAnnounced_ok []
  | cons x xs ih =>
    rw [List.mapM_cons]
    refine (h x List.mem_cons_self).bind fun b _ => ?_
    exact (ih fun y hy => h y (List.mem_cons_of_mem x hy)).bind fun bs _ => isAnnounced_ok (b :: bs)

end Announced

end SchemaForge.Outcome
