import SchemaForge.Proofs.Migration.Properness
import SchemaForge.Proofs.Migration.Success
import SchemaForge.Proofs.Number.Digits

/-!
# Rules by the texts of their ids

By section 6.1 of the specification one step sets `rules[scope][id]`, and another one takes the rule
away, with a scope that is empty then. Both act under the text of the id, and find the scope by text
as well, whether these are given as texts or as numbers (`run_eq_of_nameSameRule`). The rules that a
collection is made with keep the ids that they are given, though; only their scopes are taken by
their texts. So a rule under a number is not met by a step with the text of that number. After a
step that adds a rule this rule alone is under the text of its id, and after one that drops a rule
there is none, exactly if before the step there was no such number (`rules_by_text_iff`).

What is under an id is compared before and after the step on the entries of one scope
(`Entries.withText_put_iff`, `Entries.withText_remove_iff`), for which its keys have to be distinct.
That they are is an invariant of all states (`ReachedBy.eachScope`).
-/

namespace SchemaForge

open Change (withPart)

/-! ## Keys with a text -/

/-- The keys of a mapping, in their order; no keys for any other value. -/
def Value.keys (v : Value) : List Scalar := Entries.keys (v.entries?.getD [])

/-- No two keys of a list agree, as in every mapping. Keys are compared as a mapping does it, where
`1` and `true` are one key. -/
def AreDistinct (keys : List Scalar) : Prop := keys.Pairwise fun k l => (k == l) = false

namespace Entries

variable {es : List (Scalar × Value)} {id : String} {x : Value}

/-- The entries whose keys have the text `id`: at most one of them is under the text itself, and the
others are under numbers and the like. -/
def withText (id : String) (es : List (Scalar × Value)) : List (Scalar × Value) :=
  es.filter fun e => e.1.text == id

/-- An entry whose key has another text is left out of `withText id`. -/
theorem withText_cons_of_ne {e : Scalar × Value} (h : ¬(e.1.text == id) = true) :
    withText id (e :: es) = withText id es := List.filter_cons_of_neg h

/-- An entry whose key has the text stays in `withText id`. -/
theorem withText_cons {e : Scalar × Value} (h : (e.1.text == id) = true) :
    withText id (e :: es) = e :: withText id es := List.filter_cons_of_pos h

/-- Beside an entry under a text there is none with that text exactly if all entries with it are
under the text itself. -/
theorem withText_eq_nil_iff {b : Value}
    (h : AreDistinct (keys ((.str id, b) :: es))) :
    withText id es = [] ↔ ∀ e ∈ withText id ((.str id, b) :: es), e.1 = .str id := by
  rw [withText_cons (beq_self_eq_true id), List.forall_mem_cons]
  constructor
  · intro hnil
    rw [hnil]
    exact ⟨rfl, fun _ he => absurd he List.not_mem_nil⟩
  · rintro ⟨-, hall⟩
    refine List.eq_nil_iff_forall_not_mem.mpr fun e he => ?_
    have hdisagree := (List.pairwise_cons.mp h).1 e.1
      (List.mem_map.mpr ⟨e, List.mem_of_mem_filter he, rfl⟩)
    rw [hall e he, Scalar.str_beq_self] at hdisagree
    cases hdisagree

/-- What is put under a text is the only entry with that text exactly if there was none but under
the text itself. -/
theorem withText_put_iff (h : AreDistinct (keys es)) :
    withText id (put (.str id) x es) = [(.str id, x)]
      ↔ ∀ e ∈ withText id es, e.1 = .str id := by
  induction es with
  | nil =>
    rw [put, withText_cons (beq_self_eq_true id)]
    exact ⟨fun _ _ he => absurd he List.not_mem_nil, fun _ => rfl⟩
  | cons e es ih =>
    obtain ⟨k, b⟩ := e
    rw [put]
    -- The entry is replaced where its key stands, and behind the others if it is new.
    by_cases hk : (k == .str id) = true
    · obtain rfl : k = .str id := by rwa [Scalar.beq_str, decide_eq_true_eq] at hk
      rw [if_pos hk, withText_cons (beq_self_eq_true id), ← withText_eq_nil_iff h]
      simp only [List.cons.injEq, true_and]
    · have hne : k ≠ .str id := fun heq => hk (heq ▸ Scalar.str_beq_self id)
      rw [if_neg hk]
      by_cases htext : (k.text == id) = true
      · -- the other key stays beside the new one
        rw [withText_cons htext, withText_cons htext, List.forall_mem_cons]
        exact ⟨fun heq => absurd (congrArg Prod.fst (List.cons.inj heq).1) hne,
          fun hall => absurd hall.1 hne⟩
      · rw [withText_cons_of_ne htext, withText_cons_of_ne htext]
        exact ih (List.pairwise_cons.mp h).2

/-- When an entry under a text is taken away, none with that text is left exactly if there was none
but under the text itself. -/
theorem withText_remove_iff (h : AreDistinct (keys es)) :
    withText id (remove (.str id) es) = [] ↔ ∀ e ∈ withText id es, e.1 = .str id := by
  induction es with
  | nil => exact ⟨fun _ _ he => absurd he List.not_mem_nil, fun _ => rfl⟩
  | cons e es ih =>
    obtain ⟨k, b⟩ := e
    rw [remove]
    by_cases hk : (k == .str id) = true
    · obtain rfl : k = .str id := by rwa [Scalar.beq_str, decide_eq_true_eq] at hk
      rw [if_pos hk]
      exact withText_eq_nil_iff h
    · have hne : k ≠ .str id := fun heq => hk (heq ▸ Scalar.str_beq_self id)
      rw [if_neg hk]
      -- A key with the text that is not this text stays, and so its rule stays visible.
      by_cases htext : (k.text == id) = true
      · rw [withText_cons htext, withText_cons htext, List.forall_mem_cons]
        exact ⟨fun heq => absurd heq (List.cons_ne_nil _ _), fun hall => absurd hall.1 hne⟩
      · rw [withText_cons_of_ne htext, withText_cons_of_ne htext]
        exact ih (List.pairwise_cons.mp h).2

/-- Whether all keys with a text are this text is seen on the keys alone. -/
theorem forall_withText_iff :
    (∀ e ∈ withText id es, e.1 = .str id) ↔ ∀ k ∈ keys es, k.text = id → k = .str id := by
  simp only [withText, keys, List.mem_filter, List.mem_map, beq_iff_eq]
  constructor
  · rintro h _ ⟨e, he, rfl⟩ htext
    exact h e ⟨he, htext⟩
  · rintro h e ⟨he, htext⟩
    exact h e.1 ⟨e, he, rfl⟩ htext

end Entries

/-! ## Keys of mappings -/

namespace Value

variable {v x left : Value} {name : String}

/-- The entries of a mapping into which something was put, by the keys that the mapping had. -/
theorem exists_entries?_withPart (hv : v.isMapping = true) (hx : ∀ nodes, x.within nodes = x)
    (name : String) : ∃ es, Entries.keys es = v.keys ∧
      (withPart name x v).entries? = some (Entries.put (.str name) x es) := by
  obtain ⟨f, es, hf, rfl⟩ := exists_assembles hv
  obtain ⟨g, -, -, hentries⟩ := hf.entries es
  obtain ⟨g', hg', -, hentries'⟩ := hf.entries (Entries.put (.str name) x es)
  refine ⟨Entries.mapValues g' es, ?_, ?_⟩
  · rw [keys, hentries, Option.getD_some, Entries.keys_mapValues, Entries.keys_mapValues]
  · rw [hf.withPart, hentries', ← Entries.put_mapValues, hg' x hx]

/-- The entries of a mapping from which something was taken, by the keys that the mapping had. -/
theorem exists_entries?_discard (hv : v.isMapping = true) (h : v.discard name = .ok left) :
    ∃ es, Entries.keys es = v.keys ∧ left.entries? = some (Entries.remove (.str name) es) := by
  obtain ⟨f, es, hf, rfl⟩ := exists_assembles hv
  obtain ⟨g, -, -, hentries⟩ := hf.entries es
  obtain ⟨g', -, -, hentries'⟩ := hf.entries (Entries.remove (.str name) es)
  rw [hf.discard] at h
  refine ⟨Entries.mapValues g' es, ?_, ?_⟩
  · rw [keys, hentries, Option.getD_some, Entries.keys_mapValues, Entries.keys_mapValues]
  · rw [← Except.ok.inj h, hentries', Entries.remove_mapValues]

/-- A mapping into which something is put has the same keys, or the new one at the end, with which
none agrees. -/
theorem keys_withPart (hv : v.isMapping = true) (name : String) (x : Value) :
    (withPart name x v).keys = v.keys ∨ (withPart name x v).keys = v.keys ++ [.str name] ∧
      ∀ k ∈ v.keys, (k == .str name) = false := by
  obtain ⟨f, es, hf, rfl⟩ := exists_assembles hv
  obtain ⟨g, -, -, hentries⟩ := hf.entries es
  obtain ⟨g', -, -, hentries'⟩ := hf.entries (Entries.put (.str name) x es)
  rw [hf.withPart, keys, keys, hentries, hentries', Option.getD_some, Option.getD_some,
    Entries.keys_mapValues, Entries.keys_mapValues]
  exact Entries.keys_put

/-- A mapping from which something is taken has no new keys, and the others in their order. -/
theorem keys_discard (hv : v.isMapping = true) (h : v.discard name = .ok left) :
    left.keys.Sublist v.keys := by
  obtain ⟨es, hkeys, hes⟩ := exists_entries?_discard hv h
  rw [← hkeys, keys, hes, Option.getD_some]
  exact Entries.keys_remove_sublist

/-- A value that counts as false has no keys, be it an empty mapping or no mapping. -/
theorem keys_eq_nil (h : v.isTruthy = false) : v.keys = [] := by
  rw [keys]
  cases hes : v.entries? with
  | none => rfl
  | some es =>
    rw [isTruthy_of_entries? hes, Bool.not_eq_false', List.isEmpty_iff] at h
    rw [h]
    rfl

/-- A value that counts as false has no keys, so `orElse` an empty mapping leaves the keys as they
are. -/
theorem keys_orElse (v : Value) : (v.orElse (.mapping [])).keys = v.keys := by
  rw [orElse]
  cases htruthy : v.isTruthy with
  | true => rw [if_pos rfl]
  | false =>
    rw [if_neg Bool.false_ne_true, keys_eq_nil htruthy]
    rfl

end Value

/-! ## Rules of collections -/

variable {w w' : Working} {c c' : WorkingCollection} {cs : List (String × WorkingCollection)}
  {ps ps' : Parameters} {name scope id : String} {Q : List Scalar → Prop}

/-- What is under a scope of the rules of a collection, if there is anything. -/
def WorkingCollection.scope? (c : WorkingCollection) (scope : String) : Option Value :=
  Entries.get? scope (c.rules.getD [])

/-- The rules of a scope of a collection, by their ids; none where there is no such scope. -/
def WorkingCollection.rulesOf (c : WorkingCollection) (scope : String) : List (Scalar × Value) :=
  ((c.scope? scope).bind Value.entries?).getD []

/-- The ids under a scope are the keys of what is there, if something is. -/
theorem WorkingCollection.keys_rulesOf (c : WorkingCollection) (scope : String) {x : Value}
    (hx : x.keys = []) : Entries.keys (c.rulesOf scope) = ((c.scope? scope).getD x).keys := by
  rw [rulesOf]
  cases c.scope? scope with
  | none => exact hx.symm
  | some v => rfl

/-- The rules of a scope of a collection whose ids have the text `id`. -/
def Working.rulesUnder (w : Working) (name scope id : String) : List (Scalar × Value) :=
  Entries.withText id (((Entries.get? name w.collections).map (·.rulesOf scope)).getD [])

/-- The function `rulesUnder` finds the rules of a collection that is there under all ids with a
given text. -/
theorem Working.rulesUnder_of_get? (h : Entries.get? name w.collections = some c) :
    w.rulesUnder name scope id = Entries.withText id (c.rulesOf scope) := by
  rw [rulesUnder, h]
  rfl

/-- The ids under every scope of a collection have the property `Q`. -/
def WorkingCollection.EachScope (Q : List Scalar → Prop) (c : WorkingCollection) : Prop :=
  ∀ s ∈ c.rules.getD [], Q s.2.keys

/-- The ids under every scope of every collection have the property `Q`. -/
def EachScope (Q : List Scalar → Prop) (cs : List (String × WorkingCollection)) : Prop :=
  ∀ d ∈ cs, d.2.EachScope Q

/-- The property `Q` holds of no ids, and of ids with a new one at the end and with fewer, so that
rules that are put and taken away keep it. -/
structure IsScopeProperty (Q : List Scalar → Prop) : Prop where
  /-- There may be no rules. -/
  nil : Q []
  /-- A rule may be put under a text that is new. -/
  concat : ∀ keys id, Q keys → (∀ k ∈ keys, (k == Scalar.str id) = false) → Q (keys ++ [.str id])
  /-- Rules may be taken away. -/
  sublist : ∀ keys keys', Q keys → keys'.Sublist keys → Q keys'

/-- Ids stay distinct when a new one is put and when some are removed. -/
theorem isScopeProperty_areDistinct : IsScopeProperty AreDistinct where
  nil := List.Pairwise.nil
  concat keys id h hnew := by
    refine List.pairwise_append.mpr ⟨h, List.pairwise_singleton _ _, fun k hk l hl => ?_⟩
    rw [List.mem_singleton.mp hl]
    exact hnew k hk
  sublist _ _ h hsub := h.sublist hsub

/-- If each scope has the property, so have the ids under one scope, also if there is no such
scope. -/
theorem WorkingCollection.EachScope.keys_scope (hQ : IsScopeProperty Q) (h : c.EachScope Q)
    (scope : String) : Q (Entries.keys (c.rulesOf scope)) := by
  rw [WorkingCollection.rulesOf]
  cases hscope : c.scope? scope with
  | none => exact hQ.nil
  | some v => exact h _ (Entries.mem_of_get? hscope)

/-- The ids under each scope of a collection have the property that `EachScope` says of all of
them. -/
theorem EachScope.keys_scope (hQ : IsScopeProperty Q) (h : EachScope Q cs)
    (hget : Entries.get? name cs = some c) (scope : String) : Q (Entries.keys (c.rulesOf scope)) :=
  (h _ (Entries.mem_of_get? hget)).keys_scope hQ scope

/-- If each scope of the other collections and of a new one has the property, it stays so with this
one put among them. -/
theorem EachScope.put (h : EachScope Q cs) (hc : c.EachScope Q) :
    EachScope Q (Entries.put name c cs) := by
  intro d hd
  rcases Entries.mem_put hd with rfl | hd
  · exact hc
  · exact h d hd

namespace Operation

/-- The ids under every scope that a collection is made with have the property `Q`; no other
operation gives ids in bulk. -/
def GivesIds (Q : List Scalar → Prop) (ps : Parameters) : Operation → Prop
  | createCollection => ∀ e ∈ (ps.optional "rules").entries?.getD [], Q e.2.keys
  | _ => True

/-- A collection that is made has the property under every scope if the parameters give it. -/
theorem eachScope_of_specifies (hgives : createCollection.GivesIds Q ps) (h : Specifies ps c) :
    c.EachScope Q := by
  intro s hs
  -- what is under a scope is copied from the parameters, ids and all
  obtain ⟨e, he, rfl⟩ := (Parameters.mem_of_mappingOf h.rules).2 s hs
  exact hgives e he

/-- A collection keeps the property under every scope when a rule is added. -/
theorem eachScope_of_addsRule (hQ : IsScopeProperty Q) (h : AddsRule ps c c')
    (hc : c.EachScope Q) : c'.EachScope Q := by
  obtain ⟨scope, id, rule, v, -, -, -, hv, hmapping, rfl⟩ := h
  have hbefore : Q v.keys := by
    rw [← hv, ← WorkingCollection.scope?, ← c.keys_rulesOf scope rfl]
    exact hc.keys_scope hQ scope
  intro s hs
  rcases Entries.mem_put hs with rfl | hs
  · rcases Value.keys_withPart hmapping id rule with hkeys | ⟨hkeys, hnew⟩
    · exact hkeys ▸ hbefore
    · exact hkeys ▸ hQ.concat _ _ hbefore hnew
  · exact hc s hs

/-- A collection keeps the property under every scope when a rule is dropped. -/
theorem eachScope_of_dropsRule (hQ : IsScopeProperty Q) (h : DropsRule ps c c')
    (hc : c.EachScope Q) : c'.EachScope Q := by
  obtain ⟨scope, id, v, left, rules, -, -, hv, hmapping, hleft, hrules, rfl⟩ := h
  have hbefore : Q v.keys := by
    rw [← hv, Value.keys_orElse, ← WorkingCollection.scope?, ← c.keys_rulesOf scope rfl]
    exact hc.keys_scope hQ scope
  intro s hs
  have hs' : s ∈ rules := by
    cases rules with
    | nil => exact hs
    | cons rule rest => exact hs
  rw [hrules] at hs'
  split at hs'
  · rcases Entries.mem_put hs' with rfl | hs'
    · exact hQ.sublist _ _ hbefore (Value.keys_discard hmapping hleft)
    · exact hc s hs'
  · exact hc s (Entries.mem_of_mem_remove hs')

/-- Operations that succeed keep the property of ids under all scopes. -/
theorem eachScope_of_leads (hQ : IsScopeProperty Q) {op : Operation} (hgives : op.GivesIds Q ps)
    (h : op.Leads ps w w') (hw : EachScope Q w.collections) : EachScope Q w'.collections := by
  -- An operation changes one record or the rules of one collection, or adds or takes away a
  -- collection; only the second kind reaches scopes that were there.
  have hlocated : ∀ {F}, LocatedChange ps F w w' → EachScope Q w'.collections := by
    rintro F ⟨name, path, c, r, -, -, hget, -, rfl⟩
    exact hw.put (hw _ (Entries.mem_of_get? hget))
  have hruled : ∀ {G : WorkingCollection → WorkingCollection → Prop},
      (∀ c c', G c c' → c.EachScope Q → c'.EachScope Q) →
        RuledChange ps G w w' → EachScope Q w'.collections := by
    rintro G hG ⟨name, c, c', -, hget, hchanged, rfl⟩
    exact hw.put (hG c c' hchanged (hw _ (Entries.mem_of_get? hget)))
  cases op with
  | createCollection =>
    obtain ⟨name, c, -, -, hc, rfl⟩ := h
    exact hw.put (eachScope_of_specifies hgives hc)
  | dropCollection =>
    obtain ⟨name, -, -, rfl⟩ := h
    exact fun d hd => hw d (Entries.mem_of_mem_remove hd)
  | addRule => exact hruled (fun _ _ => eachScope_of_addsRule hQ) h
  | dropRule => exact hruled (fun _ _ => eachScope_of_dropsRule hQ) h
  | addAttribute => exact hlocated h
  | dropAttribute => exact hlocated h
  | alterAttributeOption => exact hlocated h
  | dropAttributeOption => exact hlocated h
  | setAttributeOptional => exact hlocated h

/-- What operations leave where they fail keeps the property of ids under all scopes. -/
theorem eachScope_of_abandons (hQ : IsScopeProperty Q) {op : Operation} (h : op.Abandons ps w w')
    (hw : EachScope Q w.collections) : EachScope Q w'.collections := by
  have hleft : ∀ {G : WorkingCollection → WorkingCollection → Prop},
      (∀ c c', G c c' → c.EachScope Q → c'.EachScope Q) →
        LeftIn ps G w w' → EachScope Q w'.collections := by
    rintro G hG (rfl | ⟨name, c, c', -, hget, hleft, rfl⟩)
    · exact hw
    · exact hw.put (hG c c' hleft (hw _ (Entries.mem_of_get? hget)))
  have hrecord : LeftIn ps SettlesRecord w w' → EachScope Q w'.collections := by
    refine hleft ?_
    rintro c _ ⟨r, -, rfl⟩ hc
    exact hc
  cases op with
  | createCollection => exact h ▸ hw
  | dropCollection => exact h ▸ hw
  | addRule =>
    refine hleft ?_ h
    -- nothing was left, or rules without scopes, or an empty scope
    rintro c _ (rfl | ⟨rules, rfl | ⟨scope, -, -, rfl⟩, rfl⟩) hc s hs
    · exact hc s hs
    · exact hc s hs
    · rcases Entries.mem_put hs with rfl | hs
      · exact hQ.nil
      · exact hc s hs
  | dropRule =>
    refine hleft ?_ h
    rintro c _ (rfl | ⟨rules, rfl, rfl⟩) hc s hs
    · exact hc s hs
    · exact hc s hs
  | addAttribute => exact hrecord h
  | dropAttribute => exact hrecord h
  | alterAttributeOption => exact hrecord h
  | dropAttributeOption => exact hrecord h
  | setAttributeOptional => exact hrecord h

/-! ## Rules that are added and dropped -/

/-- What is under a scope when a rule was added there: the rules of before, with this one put under
the text of its id. -/
theorem exists_rulesOf_of_addsRule {rule : Value} (h : AddsRule ps c c')
    (hscope : ps.nameOf "scope" = .ok scope) (hid : ps.nameOf "id" = .ok id)
    (hrule : ps.required "rule" = .ok rule) (hwithin : ∀ nodes, rule.within nodes = rule) :
    ∃ es, Entries.keys es = Entries.keys (c.rulesOf scope) ∧
      c'.rulesOf scope = Entries.put (.str id) rule es := by
  obtain ⟨scope₀, id₀, rule₀, v, hscope₀, hid₀, hrule₀, hv, hmapping, rfl⟩ := h
  obtain rfl : scope = scope₀ := Except.ok.inj (hscope.symm.trans hscope₀)
  obtain rfl : id = id₀ := Except.ok.inj (hid.symm.trans hid₀)
  obtain rfl : rule = rule₀ := Except.ok.inj (hrule.symm.trans hrule₀)
  obtain ⟨es, hkeys, hes⟩ := Value.exists_entries?_withPart hmapping hwithin id
  refine ⟨es, ?_, ?_⟩
  · rw [hkeys, c.keys_rulesOf scope (x := .mapping []) rfl, WorkingCollection.scope?, hv]
  · rw [WorkingCollection.rulesOf, WorkingCollection.scope?, Option.getD_some,
      Entries.get?_put_self, Option.bind_some, hes, Option.getD_some]

/-- What is under a scope when a rule was dropped there: the rules of before, without the one under
the text of its id. -/
theorem exists_rulesOf_of_dropsRule (h : DropsRule ps c c') (hc : c.IsSound)
    (hscope : ps.nameOf "scope" = .ok scope) (hid : ps.nameOf "id" = .ok id) :
    ∃ es, Entries.keys es = Entries.keys (c.rulesOf scope) ∧
      c'.rulesOf scope = Entries.remove (.str id) es := by
  obtain ⟨scope₀, id₀, v, left, rules, hscope₀, hid₀, hv, hmapping, hleft, hrules, rfl⟩ := h
  obtain rfl : scope = scope₀ := Except.ok.inj (hscope.symm.trans hscope₀)
  obtain rfl : id = id₀ := Except.ok.inj (hid.symm.trans hid₀)
  obtain ⟨es, hkeys, hes⟩ := Value.exists_entries?_discard hmapping hleft
  -- Reading a scope behind its removal asks that no second entry comes to light there.
  have hdistinct : (Entries.keys (c.rules.getD [])).Nodup := by
    cases hold : c.rules with
    | none => exact List.nodup_nil
    | some old => exact hc.rules old hold
  refine ⟨es, ?_, ?_⟩
  · rw [hkeys, c.keys_rulesOf scope (x := .null) rfl, WorkingCollection.scope?, ← hv,
      Value.keys_orElse]
  · have hthere : (if rules.isEmpty then none else some rules).getD [] = rules := by
      cases rules <;> rfl
    rw [WorkingCollection.rulesOf, WorkingCollection.scope?, hthere, hrules]
    split
    · rw [Entries.get?_put_self, Option.bind_some, hes, Option.getD_some]
    · -- a scope that is taken away has no rules left
      rename_i hfalse
      rw [Value.isTruthy_of_entries? hes, Bool.not_eq_true, Bool.not_eq_false',
        List.isEmpty_iff] at hfalse
      rw [Entries.get?_remove_self hdistinct, hfalse]
      rfl

/-- The parameters name a collection, a scope and an id, each by its text. -/
structure NamesRule (ps : Parameters) (name scope id : String) : Prop where
  /-- The collection. -/
  collection : ps.nameOf "collection" = .ok name
  /-- The scope. -/
  scope : ps.nameOf "scope" = .ok scope
  /-- The id. -/
  id : ps.nameOf "id" = .ok id

/-- The parameters of a step name one rule at most: collection, scope and id are read off them. -/
theorem NamesRule.unique {name' scope' id' : String} (h : NamesRule ps name scope id)
    (h' : NamesRule ps name' scope' id') : name = name' ∧ scope = scope' ∧ id = id' :=
  ⟨Except.ok.inj (h.collection.symm.trans h'.collection),
    Except.ok.inj (h.scope.symm.trans h'.scope), Except.ok.inj (h.id.symm.trans h'.id)⟩

/-- A step that adds a rule has been given the names of one, and the rule. -/
theorem exists_namesRule_of_addRule (h : addRule.Leads ps w w') :
    ∃ name scope id rule, NamesRule ps name scope id ∧ ps.required "rule" = .ok rule := by
  obtain ⟨name, c, c', hname, -, ⟨scope, id, rule, v, hscope, hid, hrule, -⟩, -⟩ := h
  exact ⟨name, scope, id, rule, ⟨hname, hscope, hid⟩, hrule⟩

/-- A step that drops a rule has been given the names of one. -/
theorem exists_namesRule_of_dropRule (h : dropRule.Leads ps w w') :
    ∃ name scope id, NamesRule ps name scope id := by
  obtain ⟨name, c, c', hname, -, ⟨scope, id, v, left, rules, hscope, hid, -⟩, -⟩ := h
  exact ⟨name, scope, id, hname, hscope, hid⟩

/-- When a rule was added it is the only one under the text of its id exactly if no rule stood under
another key with this text. -/
theorem rulesUnder_of_addRule {rule : Value} (h : addRule.Leads ps w w')
    (hw : EachScope AreDistinct w.collections) (hnames : NamesRule ps name scope id)
    (hrule : ps.required "rule" = .ok rule) (hproper : rule.IsProper) :
    w'.rulesUnder name scope id = [(.str id, rule)]
      ↔ ∀ e ∈ w.rulesUnder name scope id, e.1 = .str id := by
  obtain ⟨name₀, c, c', hname₀, hget, hadds, rfl⟩ := h
  obtain rfl : name = name₀ := Except.ok.inj (hnames.collection.symm.trans hname₀)
  obtain ⟨es, hkeys, hafter⟩ := exists_rulesOf_of_addsRule hadds hnames.scope hnames.id hrule
    hproper.within_eq
  have hdistinct : AreDistinct (Entries.keys es) :=
    hkeys ▸ hw.keys_scope isScopeProperty_areDistinct hget scope
  rw [Working.rulesUnder_of_get? hget, Working.rulesUnder_of_get? Entries.get?_put_self, hafter,
    Entries.withText_put_iff hdistinct, Entries.forall_withText_iff, hkeys,
    ← Entries.forall_withText_iff]

/-- When a rule was dropped there is none under the text of its id exactly if no rule stood under
another key with this text. -/
theorem rulesUnder_of_dropRule (h : dropRule.Leads ps w w') (hsound : w.IsSound)
    (hw : EachScope AreDistinct w.collections) (hnames : NamesRule ps name scope id) :
    w'.rulesUnder name scope id = [] ↔ ∀ e ∈ w.rulesUnder name scope id, e.1 = .str id := by
  obtain ⟨name₀, c, c', hname₀, hget, hdrops, rfl⟩ := h
  obtain rfl : name = name₀ := Except.ok.inj (hnames.collection.symm.trans hname₀)
  have hc : c.IsSound := hsound.all _ (Entries.mem_of_get? hget)
  obtain ⟨es, hkeys, hafter⟩ := exists_rulesOf_of_dropsRule hdrops hc hnames.scope hnames.id
  have hdistinct : AreDistinct (Entries.keys es) :=
    hkeys ▸ hw.keys_scope isScopeProperty_areDistinct hget scope
  rw [Working.rulesUnder_of_get? hget, Working.rulesUnder_of_get? Entries.get?_put_self, hafter,
    Entries.withText_remove_iff hdistinct, Entries.forall_withText_iff, hkeys,
    ← Entries.forall_withText_iff]

/-- The parameters name the same collection, scope and id, whether as texts or as numbers, and the
same rule where one is added. -/
structure NameSameRule (op : Operation) (ps ps' : Parameters) : Prop where
  /-- The collection. -/
  collection : ps'.nameOf "collection" = ps.nameOf "collection"
  /-- The scope. -/
  scope : ps'.nameOf "scope" = ps.nameOf "scope"
  /-- The id. -/
  id : ps'.nameOf "id" = ps.nameOf "id"
  /-- The rule. -/
  rule : op = addRule → ps'.required "rule" = ps.required "rule"

/-- A rule is added and dropped in the same way whether it is named by texts or by numbers, since
steps take ids by their texts. -/
theorem run_eq_of_nameSameRule {op : Operation} (hop : op = addRule ∨ op = dropRule)
    (h : NameSameRule op ps ps') : op.run ps' = op.run ps := by
  rcases hop with rfl | rfl
  · simp only [run, runAddRule, h.collection, h.scope, h.id, h.rule rfl]
  · simp only [run, runDropRule, removeRule, h.collection, h.scope, h.id]

end Operation

namespace Migration

open Operation (GivesIds NamesRule NameSameRule)

variable {state step state' : Value} {op : Operation}

/-- The ids under every scope that a step makes a collection with have the property `Q`. -/
def GivesScopes (Q : List Scalar → Prop) (step : Value) : Prop :=
  ∀ op ps, Denotes step op ps → op.GivesIds Q ps

/-- A property that every step gives the ids under scopes holds of every state to which such steps
lead. -/
theorem ReachedBy.eachScope (hQ : IsScopeProperty Q) (h : ReachedBy (GivesScopes Q) state) :
    ∃ w : Working, w.IsSound ∧ EachScope Q w.collections ∧ state = w.toValue :=
  h.exists_working (I := EachScope Q) (fun _ h => (List.not_mem_nil h).elim)
    (fun _ op ps _ _ hgives hd => Operation.eachScope_of_leads hQ (hgives op ps hd))
    fun _ _ _ _ _ _ _ => Operation.eachScope_of_abandons hQ

/-- Rules are matched by the texts of their ids as far as these are not numbers. On a state to which
steps lead that make scopes with distinct ids, a step that adds a rule leaves this rule alone under
the text of its id, and one that drops a rule leaves none, exactly if no other key under the scope
has this text. -/
theorem rules_by_text_iff (h : ReachedBy (GivesScopes AreDistinct) state) (hstep : step.IsProper)
    (hd : Denotes step op ps) (hrun : (runStep step).runOn state = (.ok (), state')) :
    ∃ w w' : Working, w.IsSound ∧ w'.IsSound ∧ state = w.toValue ∧ state' = w'.toValue ∧
      (op = .addRule → ∃ name scope id rule, NamesRule ps name scope id ∧
        ps.required "rule" = .ok rule ∧ (w'.rulesUnder name scope id = [(.str id, rule)]
          ↔ ∀ e ∈ w.rulesUnder name scope id, e.1 = .str id)) ∧
      (op = .dropRule → ∃ name scope id, NamesRule ps name scope id ∧
        (w'.rulesUnder name scope id = []
          ↔ ∀ e ∈ w.rulesUnder name scope id, e.1 = .str id)) ∧
      (op = .addRule ∨ op = .dropRule → ∀ step' ps', Denotes step' op ps' →
        NameSameRule op ps ps' → (runStep step').runOn state = (.ok (), state')) := by
  obtain ⟨w, hw, hscopes, rfl⟩ := h.eachScope isScopeProperty_areDistinct
  obtain ⟨op₀, ps₀, w', hd₀, hleads, hw', rfl⟩ := exists_leads_of_runStep hw hrun
  obtain ⟨rfl, rfl⟩ := hd.unique hd₀
  refine ⟨w, w', hw, hw', rfl, rfl, ?_, ?_, ?_⟩
  · rintro rfl
    obtain ⟨name, scope, id, rule, hnames, hrule⟩ := Operation.exists_namesRule_of_addRule hleads
    have hproper := (hd.givesProper hstep).required hrule
    exact ⟨name, scope, id, rule, hnames, hrule,
      Operation.rulesUnder_of_addRule hleads hscopes hnames hrule hproper⟩
  · rintro rfl
    obtain ⟨name, scope, id, hnames⟩ := Operation.exists_namesRule_of_dropRule hleads
    exact ⟨name, scope, id, hnames, Operation.rulesUnder_of_dropRule hleads hw hscopes hnames⟩
  -- The other step runs the same operation, with parameters that name the same rule.
  · intro hop step' ps' hd' hsame
    rw [runOn_runStep hd', Operation.run_eq_of_nameSameRule hop hsame, ← runOn_runStep hd, hrun]

/-- A state with notes that have rules for reading, under ids of any kind. -/
def readableNotes (rules : List (Scalar × Value)) : Working :=
  ⟨0, [("notes", ⟨⟨[], []⟩, some [("read", .mapping rules)]⟩)]⟩

/-- The notes are made with a rule under a text. It is replaced, and it is dropped. -/
theorem rules_by_text_iff_readableNotes :
    let create : Value := .list [.str "create_collection", .record [("name", .str "notes"),
      ("rules", .record [("read", .record [("all", .bool true)])])]]
    let names : List (String × Value) :=
      [("collection", .str "notes"), ("scope", .str "read"), ("id", .str "all")]
    let add : Value := .list [.str "add_rule", .record (names ++ [("rule", .bool false)])]
    let drop : Value := .list [.str "drop_rule", .record names]
    let state := ((runStep create).runOn emptyState).2
    let replaced := readableNotes [(.str "all", .bool false)]
    let dropped : Working := ⟨0, [("notes", ⟨⟨[], []⟩, none⟩)]⟩
    state = (readableNotes [(.str "all", .bool true)]).toValue ∧
      ((runStep add).runOn state = (.ok (), replaced.toValue) ∧
        replaced.rulesUnder "notes" "read" "all" = [(.str "all", .bool false)]) ∧
        (runStep drop).runOn state = (.ok (), dropped.toValue) ∧
          dropped.rulesUnder "notes" "read" "all" = [] := by
  intro create names add drop state replaced dropped
  -- The step gives a single id for its scope, so that no two of them can have one text.
  have hcreate : GivesScopes AreDistinct create := by
    intro op ps hd
    obtain ⟨rfl, rfl⟩ := hd.unique ⟨_, _, "create_collection", rfl, rfl, rfl⟩
    exact List.forall_mem_singleton.mpr (List.pairwise_singleton _ _)
  have hreached : ReachedBy (GivesScopes AreDistinct) state := .step hcreate .empty
  have hstate : state = (readableNotes [(.str "all", .bool true)]).toValue := rfl
  have hnames : ∀ f ∈ names, f.2.IsProper := by
    simp only [names, List.forall_mem_cons]
    exact ⟨.scalar, .scalar, .scalar, fun _ h => absurd h List.not_mem_nil⟩
  have hadd : add.IsProper := by
    refine .list (List.forall_mem_cons.mpr ⟨.scalar, List.forall_mem_singleton.mpr ?_⟩)
    refine Value.isProper_record fun f hf => ?_
    rcases List.mem_append.mp hf with hf | hf
    · exact hnames f hf
    · rw [List.mem_singleton.mp hf]
      exact .scalar
  have hdrop : drop.IsProper := .list (List.forall_mem_cons.mpr
    ⟨.scalar, List.forall_mem_singleton.mpr (Value.isProper_record hnames)⟩)
  have hbefore : ∀ e ∈ (readableNotes [(.str "all", .bool true)]).rulesUnder "notes" "read" "all",
      e.1 = .str "all" := List.forall_mem_singleton.mpr rfl
  refine ⟨hstate, ⟨rfl, ?_⟩, rfl, ?_⟩
  · have hrun : (runStep add).runOn state = (.ok (), replaced.toValue) := rfl
    obtain ⟨w, w', -, -, hw, hw', hadds, -⟩ := rules_by_text_iff hreached hadd
      ⟨_, _, "add_rule", rfl, rfl, rfl⟩ hrun
    obtain rfl : readableNotes [(.str "all", .bool true)] = w :=
      Working.toValue_injective (hstate.symm.trans hw)
    obtain rfl : replaced = w' := Working.toValue_injective hw'
    obtain ⟨name, scope, id, rule, hnamed, hrule, hiff⟩ := hadds rfl
    obtain ⟨rfl, rfl, rfl⟩ := NamesRule.unique ⟨rfl, rfl, rfl⟩ hnamed
    obtain rfl : Value.bool false = rule := Except.ok.inj hrule
    exact hiff.mpr hbefore
  · have hrun : (runStep drop).runOn state = (.ok (), dropped.toValue) := rfl
    obtain ⟨w, w', -, -, hw, hw', -, hdrops, -⟩ := rules_by_text_iff hreached hdrop
      ⟨_, _, "drop_rule", rfl, rfl, rfl⟩ hrun
    obtain rfl : readableNotes [(.str "all", .bool true)] = w :=
      Working.toValue_injective (hstate.symm.trans hw)
    obtain rfl : dropped = w' := Working.toValue_injective hw'
    obtain ⟨name, scope, id, hnamed, hiff⟩ := hdrops rfl
    obtain ⟨rfl, rfl, rfl⟩ := NamesRule.unique ⟨rfl, rfl, rfl⟩ hnamed
    exact hiff.mpr hbefore

/-- A rule under a number, with which the notes are made, stays when it is dropped, and when it is
added again there are two rules under the text of the number. -/
theorem rules_under_number :
    let create : Value := .list [.str "create_collection", .record [("name", .str "notes"),
      ("rules", .record [("read", .mapping [(.int 1, .bool true)])])]]
    let names : List (String × Value) :=
      [("collection", .str "notes"), ("scope", .str "read"), ("id", .int 1)]
    let add : Value := .list [.str "add_rule", .record (names ++ [("rule", .bool false)])]
    let drop : Value := .list [.str "drop_rule", .record names]
    let state := ((runStep create).runOn emptyState).2
    let made := readableNotes [(.int 1, .bool true)]
    let doubled := readableNotes [(.int 1, .bool true), (.str "1", .bool false)]
    state = made.toValue ∧
      ((runStep drop).runOn state = (.ok (), made.toValue) ∧
        made.rulesUnder "notes" "read" "1" = [(.int 1, .bool true)]) ∧
        (runStep add).runOn state = (.ok (), doubled.toValue) ∧
          doubled.rulesUnder "notes" "read" "1"
            = [(.int 1, .bool true), (.str "1", .bool false)] := by
  intro create names add drop state made doubled
  have htext : (Scalar.int 1).text = "1" := by
    -- the digits of a number do not come out of evaluation, since they are made by division
    show String.ofList (Number.digits 1) = "1"
    rw [Number.digits_of_lt (by decide)]
    rfl
  have hadd : (runStep add).runOn state = (.ok (), (readableNotes [(.int 1, .bool true),
    (.str (Scalar.int 1).text, .bool false)]).toValue) := rfl
  rw [htext] at hadd
  have hfirst : ∀ rules, Entries.withText "1" ((.int 1, .bool true) :: rules)
      = (.int 1, .bool true) :: Entries.withText "1" rules := fun rules =>
    Entries.withText_cons (by rw [htext]; rfl)
  exact ⟨rfl, ⟨rfl, hfirst []⟩, hadd, hfirst [(.str "1", .bool false)]⟩

end Migration

end SchemaForge
