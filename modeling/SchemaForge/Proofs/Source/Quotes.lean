import SchemaForge.Proofs.Outcome
import SchemaForge.Source.Quotes

/-!
# Remembered quotes do not matter

The quotes of texts are remembered between runs (section 5 of the specification). A table `IsSound`
when what it remembers of texts is what quoting them anew would give. As long as an encoder quotes
nothing but texts, it keeps the table sound, and what it writes does not depend on the table: it
`IsSteady`. Sequences of steady encoders are steady, and their results are the sequences of the
results (`result_bind`).
-/

namespace SchemaForge

namespace QuoteTable

/-- Every text in the table is remembered with its quoted form. Nothing is said of other values,
which may share their entries. -/
def IsSound (t : QuoteTable) : Prop := ∀ e ∈ t.entries, ∀ s, e.1 = .str s → e.2 = Json.quote s

/-- The empty table is sound: it remembers nothing. -/
theorem isSound_empty : IsSound {} := fun _ he => absurd he List.not_mem_nil

/-- Only a text shares an entry with a text, so that texts are never mixed up. -/
theorem eq_of_shares {v : Value} {s : String} (h : shares v (.str s) = true) : v = .str s := by
  cases v with
  | scalar a =>
    cases a with
    | str s' =>
      have heq : (s' == s) = true := h
      rw [eq_of_beq heq]
    | _ => exact Bool.noConfusion h
  | _ => exact Bool.noConfusion h

variable {t : QuoteTable} {v : Value} {s : String}

/-- What a sound table has under a text is the text as `Json.quote` writes it. -/
theorem IsSound.find? (h : t.IsSound) {e : Value × String} (hf : t.find? (.str s) = some e) :
    e.2 = Json.quote s := by
  have hshares := List.find?_some hf
  exact h e (List.mem_of_find?_eq_some hf) s (eq_of_shares hshares)

/-- A sound table stays sound when one of its entries is used and moves to the front. -/
theorem IsSound.touch (h : t.IsSound) {e : Value × String} (he : e ∈ t.entries) :
    (t.touch e).IsSound := by
  intro o ho
  rcases List.mem_cons.mp ho with rfl | ho
  · exact h o he
  · exact h o ((List.mem_filter.mp ho).1)

/-- A sound table stays sound when a text is added with its quoted form, even if the oldest entry
goes for it. -/
theorem IsSound.add (h : t.IsSound) : (t.add (.str s, Json.quote s)).IsSound := by
  intro o ho s' hs'
  rcases List.mem_cons.mp (List.mem_of_mem_take ho) with rfl | ho
  · cases hs'
    rfl
  · exact h o ho s' hs'

/-- A table that was empty at first and has been used for quoting only, whatever was quoted. -/
inductive Arises : QuoteTable → Prop
  /-- The empty table. -/
  | empty : Arises {}
  /-- A table after quoting a value. -/
  | quote {t t' : QuoteTable} {v : Value} {text : String} (ht : Arises t)
      (h : (quote v).run t = .ok (text, t')) : Arises t'

/-- Whatever value is quoted, a sound table stays sound: a text is only put under its own quoted
form. -/
theorem IsSound.quote (ht : t.IsSound) {text : String} {t' : QuoteTable}
    (h : (SchemaForge.quote v).run t = .ok (text, t')) : t'.IsSound := by
  have h : SchemaForge.quote v t = .ok (text, t') := h
  unfold SchemaForge.quote at h
  split at h
  · cases h
  split at h
  · rename_i e he
    cases h
    exact ht.touch (List.mem_of_find?_eq_some he)
  · split at h
    · rename_i s hs
      cases h
      intro o ho s' hs'
      -- The new entry is a text with its own quote; the others were in the table before.
      rcases List.mem_cons.mp (List.mem_of_mem_take ho) with rfl | ho
      · obtain rfl : v = .str s' := hs'
        cases hs
        rfl
      · exact ht o ho s' hs'
    · cases h

/-- A table that arises by quoting is sound, since each quote keeps it so. -/
theorem Arises.isSound (h : t.Arises) : t.IsSound := by
  induction h with
  | empty => exact isSound_empty
  | quote _ h ih => exact ih.quote h

end QuoteTable

namespace Encoder

variable {α β : Type} {e : Encoder α} {f : α → Encoder β}

/-- With every sound table the encoder has its one `result`, and it leaves a sound table. -/
def IsSteady (e : Encoder α) : Prop :=
  ∀ t : QuoteTable, t.IsSound → ∃ t', t'.IsSound ∧ e.run t = e.result.map (·, t')

/-- An encoder with a result in any case is steady. -/
theorem isSteady_pure (a : α) : IsSteady (pure a) := fun t ht => ⟨t, ht, rfl⟩

/-- The result of an encoder that has one in any case. -/
theorem result_pure (a : α) : (pure a : Encoder α).result = .ok a := rfl

/-- An encoder that fails in any case is steady, since every table leads to the same failure. -/
theorem isSteady_throw (error : Failure Unencodable) : IsSteady (throw error : Encoder α) :=
  fun t ht => ⟨t, ht, rfl⟩

/-- An encoder that does not use the table is steady. -/
theorem isSteady_lift (x : Outcome Unencodable α) : IsSteady (liftM x : Encoder α) := by
  intro t ht
  refine ⟨t, ht, ?_⟩
  cases x <;> rfl

/-- The result of an encoder that does not use the table is the outcome it is lifted from. -/
theorem result_lift (x : Outcome Unencodable α) : (liftM x : Encoder α).result = x := by
  cases x <;> rfl

/-- A sequence of encoders runs its first part, and then the second one with the table that is
left. -/
theorem run_bind (e : Encoder α) (f : α → Encoder β) (t : QuoteTable) :
    (e >>= f).run t = e.run t >>= fun p => (f p.1).run p.2 := rfl

/-- The `result` of a sequence of steady encoders is the sequence of their results, so that tables
can be left out of what follows. -/
theorem result_bind (he : IsSteady e) (hf : ∀ a, IsSteady (f a)) :
    (e >>= f).result = e.result >>= fun a => (f a).result := by
  obtain ⟨t, ht, hrun⟩ := he {} QuoteTable.isSound_empty
  rw [result, run_bind, hrun]
  cases e.result with
  | error error => rfl
  | ok a =>
    obtain ⟨t', -, hrun'⟩ := hf a t ht
    show ((f a).run t).map (·.1) = (f a).result
    rw [hrun']
    cases (f a).result <;> rfl

/-- A steady encoder that goes on with steady ones is steady. -/
theorem isSteady_bind (he : IsSteady e) (hf : ∀ a, IsSteady (f a)) : IsSteady (e >>= f) := by
  intro t ht
  obtain ⟨t₁, ht₁, hrun⟩ := he t ht
  rw [result_bind he hf, run_bind, hrun]
  cases e.result with
  | error error => exact ⟨t₁, ht₁, rfl⟩
  | ok a =>
    obtain ⟨t₂, ht₂, hrun'⟩ := hf a t₁ ht₁
    refine ⟨t₂, ht₂, ?_⟩
    show (f a).run t₁ = (f a).result.map (·, t₂)
    exact hrun'

/-- A sequence of steady encoders has a result exactly when its parts have, the second one with the
result of the first. -/
theorem result_bind_eq_ok (he : IsSteady e) (hf : ∀ a, IsSteady (f a)) {b : β} :
    (e >>= f).result = .ok b ↔ ∃ a, e.result = .ok a ∧ (f a).result = .ok b := by
  rw [result_bind he hf, Outcome.bind_eq_ok]

/-- What a steady encoder gives with a sound table is its `result`. -/
theorem IsSteady.result_eq (he : IsSteady e) {t t' : QuoteTable} (ht : t.IsSound) {a : α}
    (h : e.run t = .ok (a, t')) : e.result = .ok a := by
  obtain ⟨t₁, -, hrun⟩ := he t ht
  rw [hrun] at h
  obtain ⟨b, hb, hpair⟩ := Outcome.map_eq_ok.mp h
  cases hpair
  exact hb

/-- A steady encoder that has a `result` gives it with every sound table. -/
theorem IsSteady.exists_run (he : IsSteady e) {t : QuoteTable} (ht : t.IsSound) {a : α}
    (h : e.result = .ok a) : ∃ t', t'.IsSound ∧ e.run t = .ok (a, t') := by
  obtain ⟨t', ht', hrun⟩ := he t ht
  rw [h] at hrun
  exact ⟨t', ht', hrun⟩

/-- Quoting a text gives its quoted form with every sound table, and keeps the table sound. -/
theorem run_quote (s : String) {t : QuoteTable} (ht : t.IsSound) :
    ∃ t', t'.IsSound ∧ (quote (.str s)).run t = .ok (Json.quote s, t') := by
  show ∃ t' : QuoteTable, t'.IsSound ∧ quote (.str s) t = .ok (Json.quote s, t')
  have hhash : (!(Value.str s).isHashable) = false := rfl
  unfold quote
  rw [hhash, if_neg Bool.false_ne_true]
  cases hf : t.find? (.str s) with
  | some e => exact ⟨_, ht.touch (List.mem_of_find?_eq_some hf), by rw [← ht.find? hf]⟩
  | none => exact ⟨_, ht.add, rfl⟩

/-- The result of quoting a text is `Json.quote` of it, whatever the table remembers. -/
theorem result_quote (s : String) : (quote (.str s)).result = .ok (Json.quote s) := by
  obtain ⟨t, -, hrun⟩ := run_quote s QuoteTable.isSound_empty
  rw [result, hrun]
  rfl

/-- Quoting a text is steady, since a sound table remembers a text with its own quote only. -/
theorem isSteady_quote (s : String) : IsSteady (quote (.str s)) := by
  intro t ht
  obtain ⟨t', ht', hrun⟩ := run_quote s ht
  exact ⟨t', ht', by rw [hrun, result_quote]; rfl⟩

end Encoder

end SchemaForge
