import SchemaForge.Json.Writer
import SchemaForge.Proofs.Outcome
import SchemaForge.Proofs.Value.Spread

/-!
# Values that have a JSON text

A value `IsRepresentable` when it is put together, in finitely many steps, of literals by way of
sequences and of mappings with literals as keys. A value that occurs within itself is none of these.
These are the values that have a JSON text (`exists_write_iff`), unless NaN and the infinities have
names. Where they have, a finite tree of any scalars but times and byte strings has a text
(`exists_write_of_isPlain`).
-/

namespace SchemaForge

/-- Whether a scalar has a JSON text of its own: it is no time, no byte string, no NaN and no
infinity. -/
def Scalar.isLiteral : Scalar → Bool
  | .float x => x.isFinite
  | .time _ => false
  | .bytes _ => false
  | _ => true

/-- Whether a value is a scalar that JSON has a literal for, and source text as well. -/
def Value.isLiteral : Value → Bool
  | .scalar s => s.isLiteral
  | _ => false

/-- Whether a scalar is neither a time nor a byte string, so that it can be written where NaN and
the infinities have names. -/
def Scalar.isPlain : Scalar → Bool
  | .time _ => false
  | .bytes _ => false
  | _ => true

namespace Value

/-- A tree of scalars other than times and byte strings, with such scalars as keys. -/
inductive IsPlain : Value → Prop
  /-- Such a scalar. -/
  | scalar {s : Scalar} (h : s.isPlain = true) : IsPlain (.scalar s)
  /-- A list. -/
  | list {items : List Value} (h : ∀ i ∈ items, IsPlain i) : IsPlain (.list items)
  /-- A list of fixed length. -/
  | tuple {items : List Value} (h : ∀ i ∈ items, IsPlain i) : IsPlain (.tuple items)
  /-- A mapping of such scalars. -/
  | mapping {entries : List (Scalar × Value)} (hk : ∀ e ∈ entries, e.1.isPlain = true)
      (h : ∀ e ∈ entries, IsPlain e.2) : IsPlain (.mapping entries)

/-- A value that is made of literals in finitely many steps: a literal, a sequence of such values,
or a mapping of literals to such values, seen without links. Nothing that occurs within itself is
made like this. -/
inductive IsRepresentable : Value → Prop
  /-- A literal. -/
  | scalar {s : Scalar} (h : s.isLiteral = true) : IsRepresentable (.scalar s)
  /-- A sequence of such values. -/
  | sequence {v : Value} {items : List Value} (hv : v.listItems? = some items)
      (h : ∀ i ∈ items, IsRepresentable i) : IsRepresentable v
  /-- A mapping of literals to such values. -/
  | mapping {v : Value} {entries : List (Scalar × Value)} (hv : v.entries? = some entries)
      (hk : ∀ e ∈ entries, e.1.isLiteral = true) (h : ∀ e ∈ entries, IsRepresentable e.2) :
      IsRepresentable v

/-- If what a value holds leads back to the value, then it occurs within itself too. -/
theorem IsCyclic.of_held {v w : Value} (hw : Holds v w)
    (h : Relation.ReflTransGen Holds w v) : w.IsCyclic := .tail' h hw

/-- The items of a value are those of the list or sequence that it is unrolled to. -/
theorem listItems?_eq_some {v : Value} {items : List Value} (h : v.listItems? = some items) :
    v.unroll = .list items ∨ v.unroll = .tuple items := by
  unfold listItems? at h
  split at h
  · rename_i hu
    cases h
    exact .inl hu
  · rename_i hu
    cases h
    exact .inr hu
  · cases h

/-- The entries of a value are those of the mapping that it is unrolled to. -/
theorem entries?_eq_some {v : Value} {entries : List (Scalar × Value)}
    (h : v.entries? = some entries) : v.unroll = .mapping entries := by
  unfold entries? at h
  split at h
  · rename_i hu
    cases h
    exact hu
  · cases h

/-- A value has items or entries, but not both, so that a writer is never in doubt between an array
and an object. -/
theorem entries?_eq_none {v : Value} {items : List Value} (h : v.listItems? = some items) :
    v.entries? = none := by
  unfold entries?
  rcases listItems?_eq_some h with hu | hu <;> rw [hu]

/-- A value made of literals does not occur within itself: the way down ends after finitely many
steps. -/
theorem IsRepresentable.not_isCyclic {v : Value} (h : v.IsRepresentable) : ¬ v.IsCyclic := by
  -- The first step of a cycle leads to a part, and from there the cycle goes on to the part itself.
  induction h with
  | scalar =>
    intro hcyclic
    obtain ⟨w, hw, -⟩ := Relation.TransGen.head'_iff.mp hcyclic
    cases hw with
    | item hv => cases hv
    | entry hv => cases hv
  | sequence hv _ ih =>
    intro hcyclic
    obtain ⟨w, hw, hback⟩ := Relation.TransGen.head'_iff.mp hcyclic
    cases hw with
    | item hv' hi =>
      cases hv.symm.trans hv'
      exact ih _ hi (.of_held (.item hv hi) hback)
    | entry hv' => cases (entries?_eq_none hv).symm.trans hv'
  | mapping hv _ _ ih =>
    intro hcyclic
    obtain ⟨w, hw, hback⟩ := Relation.TransGen.head'_iff.mp hcyclic
    cases hw with
    | item hv' => cases (entries?_eq_none hv').symm.trans hv
    | entry hv' he =>
      cases hv.symm.trans hv'
      exact ih _ he (.of_held (.entry hv he) hback)

end Value

namespace Json

open Value

variable {style : Style} {v w q : Value} {text : String}

/-! ## Scalars and keys -/

/-- The literals are the scalars that have a JSON text, in a style that has no names for NaN and the
infinities. -/
theorem exists_scalar_iff (hstyle : style.namesNonFinite = false) {s : Scalar} :
    (∃ text, style.scalar s = .ok text) ↔ s.isLiteral = true := by
  cases s with
  | float x =>
    rw [Style.scalar, Style.number, hstyle, Bool.or_false, Scalar.isLiteral]
    split_ifs with hx
    · exact ⟨fun _ => hx, fun _ => ⟨_, rfl⟩⟩
    · exact ⟨nofun, fun h => absurd h hx⟩
  | time t => exact ⟨nofun, nofun⟩
  | bytes b => exact ⟨nofun, nofun⟩
  | _ => exact ⟨fun _ => rfl, fun _ => ⟨_, rfl⟩⟩

/-- The literals are the scalars that can be keys of an object, in such a style. -/
theorem exists_key_iff (hstyle : style.namesNonFinite = false) {k : Scalar} :
    (∃ text, style.key k = .ok text) ↔ k.isLiteral = true := by
  rw [← exists_scalar_iff hstyle]
  have hquoted : (∃ text, (style.scalar k).map quote = .ok text)
      ↔ ∃ text, style.scalar k = .ok text := by
    simp only [Outcome.map_eq_ok]
    exact ⟨fun ⟨_, text, h, _⟩ => ⟨text, h⟩, fun ⟨text, h⟩ => ⟨_, text, h, rfl⟩⟩
  cases k with
  | str s => exact ⟨fun _ => ⟨_, rfl⟩, fun _ => ⟨_, rfl⟩⟩
  | _ => exact hquoted

/-! ## What is written is representable -/

mutual

/-- A value is made of literals if its full spread can be written. The induction is on the spread,
and `FullSpread.alike` tells the form of the value at each step. -/
theorem isRepresentable_of_write (hstyle : style.namesNonFinite = false) (w : Value) {q : Value}
    {depth : ℕ} (hw : FullSpread w q) {text : String} (h : style.write depth w = .ok text) :
    q.IsRepresentable := by
  -- The spread is like the value, or else it is the mark that stands for a knot within itself,
  -- which cannot be written.
  rcases hw.alike with halike | ⟨⟨n, keyed, rfl⟩, -⟩
  · generalize hq : q.unroll = u at halike
    cases w with
    | scalar s =>
      rw [hw.spreadOf.eq_scalar]
      exact .scalar ((exists_scalar_iff hstyle).mp ⟨text, h⟩)
    | list ws =>
      cases halike with
      | list hitems =>
        obtain ⟨texts, htexts, -⟩ := Outcome.bind_eq_ok.mp h
        exact .sequence (by rw [listItems?, hq])
          (isRepresentable_of_writeAll hstyle ws hitems htexts)
    | tuple ws =>
      cases halike with
      | tuple hitems =>
        obtain ⟨texts, htexts, -⟩ := Outcome.bind_eq_ok.mp h
        exact .sequence (by rw [listItems?, hq])
          (isRepresentable_of_writeAll hstyle ws hitems htexts)
    | mapping es =>
      cases halike with
      | mapping hentries =>
        obtain ⟨texts, htexts, -⟩ := Outcome.bind_eq_ok.mp h
        obtain ⟨hkeys, hvalues⟩ := isRepresentable_of_writeEntries hstyle es hentries htexts
        exact .mapping (by rw [entries?, hq]) hkeys hvalues
    | _ => cases h
  · cases h

/-- Values are made of literals if their full spreads can be written one after the other. -/
theorem isRepresentable_of_writeAll (hstyle : style.namesNonFinite = false) (ws : List Value)
    {qs : List Value} {depth : ℕ} (hws : List.Forall₂ FullSpread ws qs) {texts : List String}
    (h : style.writeAll depth ws = .ok texts) : ∀ q ∈ qs, q.IsRepresentable := by
  cases ws with
  | nil =>
    cases hws
    exact fun _ hq => absurd hq List.not_mem_nil
  | cons w ws =>
    cases hws with
    | cons hw hws =>
      obtain ⟨text, htext, h⟩ := Outcome.bind_eq_ok.mp h
      obtain ⟨texts, htexts, -⟩ := Outcome.bind_eq_ok.mp h
      intro q hq
      rcases List.mem_cons.mp hq with rfl | hq
      · exact isRepresentable_of_write hstyle w hw htext
      · exact isRepresentable_of_writeAll hstyle ws hws htexts q hq

/-- If the full spreads of entries can be written, then their keys are literals, and their values
are made of literals. -/
theorem isRepresentable_of_writeEntries (hstyle : style.namesNonFinite = false)
    (es : List (Scalar × Value)) {fs : List (Scalar × Value)} {depth : ℕ}
    (hes : List.Forall₂ (fun e f => e.1 = f.1 ∧ FullSpread e.2 f.2) es fs) {texts : List String}
    (h : style.writeEntries depth es = .ok texts) :
    (∀ f ∈ fs, f.1.isLiteral = true) ∧ ∀ f ∈ fs, f.2.IsRepresentable := by
  cases es with
  | nil =>
    cases hes
    exact ⟨fun _ hf => absurd hf List.not_mem_nil, fun _ hf => absurd hf List.not_mem_nil⟩
  | cons e es =>
    cases hes with
    | @cons _ f _ fs he hes =>
      obtain ⟨key, hkey, h⟩ := Outcome.bind_eq_ok.mp h
      obtain ⟨text, htext, h⟩ := Outcome.bind_eq_ok.mp h
      obtain ⟨texts, htexts, -⟩ := Outcome.bind_eq_ok.mp h
      obtain ⟨hkeys, hvalues⟩ := isRepresentable_of_writeEntries hstyle es hes htexts
      -- The key is the same in both lists, so what is written decides about the one that is spread.
      have hfirst := (exists_key_iff hstyle).mp ⟨key, hkey⟩
      rw [he.1] at hfirst
      exact ⟨List.forall_mem_cons.mpr ⟨hfirst, hkeys⟩, List.forall_mem_cons.mpr
        ⟨isRepresentable_of_write hstyle e.2 he.2 htext, hvalues⟩⟩

end

/-! ## What is representable is written -/

/-- Values can be written together if each of them can, where `R` tells what each tree stands
for. -/
theorem exists_writeAll {R : Value → Value → Prop} {ws qs : List Value} {depth : ℕ}
    (hws : List.Forall₂ R ws qs)
    (h : ∀ q ∈ qs, ∀ {w}, R w q → ∃ text, style.write depth w = .ok text) :
    ∃ texts, style.writeAll depth ws = .ok texts := by
  induction hws with
  | nil => exact ⟨[], rfl⟩
  | cons hw _ ih =>
    obtain ⟨text, htext⟩ := h _ List.mem_cons_self hw
    obtain ⟨texts, htexts⟩ := ih fun q hq => h q (List.mem_cons_of_mem _ hq)
    exact ⟨_, Outcome.bind_eq_ok.mpr ⟨text, htext, Outcome.bind_eq_ok.mpr ⟨texts, htexts, rfl⟩⟩⟩

/-- Entries can be written together if each key and each value can, where `R` tells what each tree
stands for. -/
theorem exists_writeEntries {R : Value → Value → Prop} {es fs : List (Scalar × Value)} {depth : ℕ}
    (hes : List.Forall₂ (fun e f => e.1 = f.1 ∧ R e.2 f.2) es fs)
    (hk : ∀ f ∈ fs, ∃ text, style.key f.1 = .ok text)
    (h : ∀ f ∈ fs, ∀ {w}, R w f.2 → ∃ text, style.write depth w = .ok text) :
    ∃ texts, style.writeEntries depth es = .ok texts := by
  -- Both lists are walked together, since the hypotheses are about the one and the text is of the
  -- other.
  induction hes with
  | nil => exact ⟨[], rfl⟩
  | cons he _ ih =>
    obtain ⟨key, hkey⟩ := hk _ List.mem_cons_self
    obtain ⟨text, htext⟩ := h _ List.mem_cons_self he.2
    obtain ⟨texts, htexts⟩ := ih (fun f hf => hk f (List.mem_cons_of_mem _ hf))
      fun f hf => h f (List.mem_cons_of_mem _ hf)
    exact ⟨_, Outcome.bind_eq_ok.mpr ⟨key, he.1 ▸ hkey, Outcome.bind_eq_ok.mpr ⟨text, htext,
      Outcome.bind_eq_ok.mpr ⟨texts, htexts, rfl⟩⟩⟩⟩

/-- The full spread of a value made of literals can be written. The induction is on how the value is
made, and no link is met since the value is not cyclic. -/
theorem exists_write (hstyle : style.namesNonFinite = false) (hq : q.IsRepresentable)
    (hw : FullSpread w q) (depth : ℕ) : ∃ text, style.write depth w = .ok text := by
  -- Nothing occurs within itself here, so the spread has the form of the value.
  induction hq generalizing w depth with
  | scalar hs =>
    rcases hw.alike with halike | ⟨-, hcyclic⟩
    · cases halike
      exact (exists_scalar_iff hstyle).mpr hs
    · exact absurd hcyclic (IsRepresentable.scalar hs).not_isCyclic
  | @sequence v items hv hitems ih =>
    have hall : ∀ {ws}, List.Forall₂ FullSpread ws items →
        ∃ texts, style.writeAll (depth + 1) ws = .ok texts :=
      fun hws => exists_writeAll hws fun i hi _ hspread => ih i hi hspread (depth + 1)
    rcases hw.alike with halike | ⟨-, hcyclic⟩
    · rcases listItems?_eq_some hv with hu | hu
      · rw [hu] at halike
        cases halike with
        | list hws =>
          obtain ⟨texts, htexts⟩ := hall hws
          exact ⟨_, Outcome.bind_eq_ok.mpr ⟨texts, htexts, rfl⟩⟩
      · rw [hu] at halike
        cases halike with
        | tuple hws =>
          obtain ⟨texts, htexts⟩ := hall hws
          exact ⟨_, Outcome.bind_eq_ok.mpr ⟨texts, htexts, rfl⟩⟩
    · exact absurd hcyclic (IsRepresentable.sequence hv hitems).not_isCyclic
  | @mapping v entries hv hk hvalues ih =>
    rcases hw.alike with halike | ⟨-, hcyclic⟩
    · rw [entries?_eq_some hv] at halike
      cases halike with
      | mapping hes =>
        obtain ⟨texts, htexts⟩ := exists_writeEntries hes
          (fun f hf => (exists_key_iff hstyle).mpr (hk f hf))
          fun f hf _ hspread => ih f hf hspread (depth + 1)
        exact ⟨_, Outcome.bind_eq_ok.mpr ⟨texts, htexts, rfl⟩⟩
    · exact absurd hcyclic (IsRepresentable.mapping hv hk hvalues).not_isCyclic

/-- A proper value has a JSON text exactly when it is made of literals (`IsRepresentable`). -/
theorem exists_write_iff (hstyle : style.namesNonFinite = false) (hv : v.IsProper) :
    (∃ text, write style v = .ok text) ↔ v.IsRepresentable :=
  ⟨fun ⟨_, h⟩ => isRepresentable_of_write hstyle v.spread hv.fullSpread h,
    fun h => exists_write hstyle h hv.fullSpread 0⟩

/-! ## Where NaN and the infinities have names -/

/-- Every scalar but a time and a byte string can be written where NaN and the infinities have
names. -/
theorem exists_scalar_of_isPlain (hstyle : style.namesNonFinite = true) {s : Scalar}
    (hs : s.isPlain = true) : ∃ text, style.scalar s = .ok text := by
  cases s with
  | float x =>
    rw [Style.scalar, Style.number, hstyle, Bool.or_true, if_pos rfl]
    exact ⟨_, rfl⟩
  | time t => cases hs
  | bytes b => cases hs
  | _ => exact ⟨_, rfl⟩

end Json

end SchemaForge
