import SchemaForge.Migration.Change
import SchemaForge.Proofs.Value.Entries

/-!
# Parts of mappings

What `get`, `item`, `contains` and `put` do with a mapping. For one with text keys each of them is
the operation on its entries. A mapping of any other kind is put together of its entries in some
way (`Assembles`), either as they are or as a node of a knot, and a part that is put in is found
again as long as it has no links at its top.
-/

namespace SchemaForge

/-- Only the text `s` itself agrees with `s` as a key; no number and no date does. -/
theorem Scalar.beq_str (k : Scalar) (s : String) : (k == .str s) = decide (k = .str s) := by
  cases k with
  | float x => rfl
  | _ => rfl

/-- A text agrees with itself as a key. -/
theorem Scalar.str_beq_self (s : String) : (Scalar.str s == .str s) = true := by
  rw [beq_str]
  exact decide_eq_true rfl

/-- What agrees with one text does not agree with another, so that keys that are texts never get
into each other's place. -/
theorem Scalar.beq_str_of_ne {k : Scalar} {s t : String} (h : s ≠ t) (hk : (k == .str s) = true) :
    (k == .str t) = false := by
  rw [beq_str, decide_eq_true_eq] at hk
  rw [beq_str, decide_eq_false_iff_not, hk, Scalar.str.injEq]
  exact h

namespace Value

open Change (withPart)

variable {v x : Value} {es : List (Scalar × Value)} {name : String}

/-! ## Access by the entries -/

/-- A value that has `entries?` is the mapping of them once it is unrolled, be it a mapping or a
knot. -/
theorem unroll_of_entries? (h : v.entries? = some es) : v.unroll = .mapping es := by
  unfold entries? at h
  split at h
  · rename_i heq
    cases h
    exact heq
  · cases h

/-- What `field?` finds under a text key is the value of an entry with this key. -/
theorem mem_of_field? (h : field? name es = some v) : (.str name, v) ∈ es := by
  unfold field? at h
  -- The first entry under the key is the one that is found, wherever it stands.
  induction es with
  | nil => cases h
  | cons e es ih =>
    obtain ⟨k, w⟩ := e
    rw [Entries.get?] at h
    split at h
    · rename_i hk
      rw [Scalar.beq_str, decide_eq_true_eq] at hk
      cases h
      rw [hk]
      exact List.mem_cons_self
    · exact List.mem_cons_of_mem _ (ih h)

/-- Only a mapping may be asked with `get` what is under a key. -/
theorem exists_entries?_of_get (h : v.get name = .ok x) : ∃ es, v.entries? = some es := by
  unfold get at h
  split at h
  · rename_i es heq
    exact ⟨es, by rw [entries?, heq]⟩
  · cases h

/-- The function `get` reads the entry under a text key, and gives the absent value where there is
none. -/
theorem get_of_entries? (name : String) (h : v.entries? = some es) :
    v.get name = .ok ((field? name es).getD .null) := by
  rw [get, unroll_of_entries? h]

/-- The function `item` reads the entry under a text key that is there. -/
theorem item_of_entries? (h : v.entries? = some es) (hx : field? name es = some x) :
    v.item name = .ok x := by
  rw [item, unroll_of_entries? h]
  dsimp only
  rw [hx]

/-- Where `item` finds something, `get` finds the same. -/
theorem get_of_item (h : v.item name = .ok x) : v.get name = .ok x := by
  unfold item at h
  unfold get
  split at h
  · split at h
    · rename_i hx
      cases h
      rw [hx, Option.getD_some]
    · cases h
  · cases h

/-- For a mapping, `contains` asks for a key and not for a value. -/
theorem contains_of_entries? (h : v.entries? = some es) :
    v.contains name = .ok (Entries.has (.str name) es) := by
  rw [contains, unroll_of_entries? h]

/-- A value has `entries?` exactly when it is a mapping, so that none of the operations on mappings
fails for want of entries. -/
theorem isSome_entries? (v : Value) : v.entries?.isSome = v.isMapping := by
  cases v with
  | knot n nodes =>
    unfold entries? isMapping
    rw [unroll, content]
    cases nodes.getD n .null <;> rfl
  | _ => rfl

/-- A mapping has entries, be it a knot or not. -/
theorem exists_entries? (h : v.isMapping = true) : ∃ es, v.entries? = some es :=
  Option.isSome_iff_exists.mp ((isSome_entries? v).trans h)

/-- Only a mapping has entries. -/
theorem isMapping_of_entries? (h : v.entries? = some es) : v.isMapping = true := by
  rw [← isSome_entries?, h]
  rfl

/-- A mapping counts as true exactly if it has entries, as `or` and `not` of the operations see
it. -/
theorem isTruthy_of_entries? (h : v.entries? = some es) : v.isTruthy = !es.isEmpty := by
  cases v with
  -- A knot is truthy by its content before it is unrolled, which has as many entries.
  | knot n nodes =>
    rw [entries?, unroll] at h
    rw [isTruthy, content]
    cases hnode : nodes.getD n .null with
    | mapping es' =>
      rw [hnode] at h
      rw [← Option.some.inj h, entriesWithin, List.isEmpty_map]
    | _ =>
      rw [hnode] at h
      cases h
  | mapping es' =>
    rw [← Option.some.inj h]
    rfl
  | _ => cases h

/-! ## Mappings with text keys -/

section Record

variable {fields : List (String × Value)}

/-- The entries of a mapping with text keys are these, under their texts. -/
theorem entries?_record : (record fields).entries? = some (textEntries fields) := rfl

/-- A mapping with text keys counts as true if it has any entries. -/
theorem isTruthy_record : (record fields).isTruthy = !fields.isEmpty := by
  cases fields <;> rfl

/-- The function `get` on a mapping with text keys is `Entries.get?`, with the absent value for a
key that is not there. -/
theorem get_record : (record fields).get name = .ok ((Entries.get? name fields).getD .null) := by
  rw [get_of_entries? name entries?_record, field?, textEntries.get?]

/-- The function `item` on a mapping with text keys gives what `Entries.get?` finds. -/
theorem item_record (h : Entries.get? name fields = some x) : (record fields).item name = .ok x :=
  item_of_entries? entries?_record (by rw [field?, textEntries.get?, h])

/-- The function `contains` on a mapping with text keys is `Entries.has`. -/
theorem contains_record : (record fields).contains name = .ok (Entries.has name fields) := by
  rw [contains_of_entries? entries?_record, Entries.has, textEntries.get?]
  rfl

/-- The function `put` on a mapping with text keys is `Entries.put`, and never fails. -/
theorem put_record : (record fields).put name x = .ok (record (Entries.put name x fields)) := by
  rw [record_eq, record_eq, ← textEntries.put]
  rfl

/-- The function `withPart` on a mapping with text keys is `Entries.put`. -/
theorem withPart_record : withPart name x (record fields) = record (Entries.put name x fields) := by
  rw [withPart, put_record]

/-- The function `discard` on a mapping with text keys is `Entries.remove`, and it does not matter
whether the key is there. -/
theorem discard_record :
    (record fields).discard name = .ok (record (Entries.remove name fields)) := by
  rw [record_eq, record_eq, ← textEntries.remove]
  rfl

/-- The function `delete` on a mapping with text keys is `Entries.remove`, if the key is there. -/
theorem delete_record (h : Entries.has name fields = true) :
    (record fields).delete name = .ok (record (Entries.remove name fields)) := by
  have hhas : Entries.has (.str name) (textEntries fields) = true := by
    rwa [Entries.has, textEntries.get?]
  rw [delete, entries?_record]
  dsimp only
  rw [if_pos hhas, discard_record]

end Record

/-- The function `toInt` goes out of range for an infinite number only, and every other value is an
integer or a bad value. -/
theorem eq_infinite_of_toInt (h : v.toInt = .error .outOfRange) :
    ∃ negative, v = .float (.infinite negative) := by
  unfold toInt at h
  -- One case for each kind of value: only an infinite number is out of range.
  split at h
  · cases h
  · cases h
  · split at h
    · exact ⟨_, rfl⟩
    · cases h
    · cases h
  · split at h <;> cases h
  · split at h <;> cases h
  · cases h

/-! ## Mappings of any kind -/

/-- A way `f` in which mappings are put together of entries: a part that is put in is put among the
entries, and the entries of `f es` are `es` up to links. Both mappings and knots are made in such a
way. -/
structure Assembles (f : List (Scalar × Value) → Value) : Prop where
  /-- A part is put among the entries. -/
  put (es : List (Scalar × Value)) (name : String) (x : Value) :
    (f es).put name x = .ok (f (Entries.put (.str name) x es))
  /-- A part is taken from among the entries. -/
  discard (es : List (Scalar × Value)) (name : String) :
    (f es).discard name = .ok (f (Entries.remove (.str name) es))
  /-- The parts are the values of the entries; links in these are followed, and what is a text
  stays what it is. -/
  entries (es : List (Scalar × Value)) : ∃ g : Value → Value,
    (∀ x, (∀ nodes, x.within nodes = x) → g x = x) ∧
      (∀ x s, (g x).same (.str s) = x.same (.str s)) ∧
        (f es).entries? = some (Entries.mapValues g es)

/-- Following links makes no text of a value that is none, so that the type of a record may be
tested with links or without. -/
theorem same_str_within (nodes : List Value) (v : Value) (s : String) :
    (v.within nodes).same (.str s) = v.same (.str s) := by
  cases v <;> rfl

/-- A knot that is a mapping begins at a node that is one: the node of its own number. -/
theorem exists_node_of_isMapping {n : ℕ} {nodes : List Value}
    (h : (Value.knot n nodes).isMapping = true) : ∃ es, nodes[n]? = some (.mapping es) := by
  unfold isMapping at h
  rw [content, List.getD_eq_getElem?_getD] at h
  cases hn : nodes[n]? with
  | none =>
    rw [hn] at h
    cases h
  | some w =>
    rw [hn, Option.getD_some] at h
    cases w with
    | mapping es => exact ⟨es, rfl⟩
    | _ => cases h

/-- Every mapping is put together of its entries in some way, so that lemmas on `Assembles` hold of
all mappings. -/
theorem exists_assembles (h : v.isMapping = true) : ∃ f es, Assembles f ∧ v = f es := by
  cases v with
  | mapping es =>
    refine ⟨.mapping, es, ⟨fun es name x => rfl, fun es name => rfl, fun es => ?_⟩, rfl⟩
    exact ⟨id, fun x _ => rfl, fun x s => rfl, congrArg some (List.map_id' es).symm⟩
  | knot n nodes =>
    obtain ⟨es, hes⟩ := exists_node_of_isMapping h
    have hn : n < nodes.length := (List.getElem?_eq_some_iff.mp hes).1
    -- Only the node at which the knot begins is changed, and it is a mapping again.
    have hset : ∀ es, (nodes.set n (.mapping es)).getD n .null = .mapping es := by
      intro es
      rw [List.getD_eq_getElem?_getD, List.getElem?_set_self hn, Option.getD_some]
    refine ⟨fun es => .knot n (nodes.set n (.mapping es)), es, ⟨?_, ?_, ?_⟩, ?_⟩
    · intro es name x
      unfold Value.put
      rw [changeEntries?, hset]
      dsimp only
      rw [List.set_set]
    · intro es name
      unfold Value.discard
      rw [changeEntries?, hset]
      dsimp only
      rw [List.set_set]
    · intro es
      refine ⟨within (nodes.set n (.mapping es)), fun x hx => hx _, same_str_within _, ?_⟩
      rw [entries?, unroll, hset]
      rfl
    · obtain ⟨_, hget⟩ := List.getElem?_eq_some_iff.mp hes
      show _ = Value.knot n (nodes.set n (.mapping es))
      rw [← hget, List.set_getElem_self]
  | _ => cases h

variable {f : List (Scalar × Value) → Value}

/-- What `Assembles` entries makes a mapping of them. -/
theorem Assembles.isMapping (hf : Assembles f) (es : List (Scalar × Value)) :
    (f es).isMapping = true := by
  obtain ⟨g, -, -, hentries⟩ := hf.entries es
  exact isMapping_of_entries? hentries

/-- The function `withPart` is `Entries.put` among the entries, whatever the mapping is made of. -/
theorem Assembles.withPart (hf : Assembles f) (es : List (Scalar × Value)) (name : String)
    (x : Value) : Change.withPart name x (f es) = f (Entries.put (.str name) x es) := by
  rw [Change.withPart, hf.put]

/-- The function `item` finds a part as it is, if the part has no links at its top that would be
followed. -/
theorem Assembles.item (hf : Assembles f) (hx : ∀ nodes, x.within nodes = x)
    (h : field? name es = some x) : (f es).item name = .ok x := by
  obtain ⟨g, hg, -, hentries⟩ := hf.entries es
  refine item_of_entries? hentries ?_
  rw [field?, Entries.get?_mapValues, ← field?, h, Option.map_some, hg x hx]

/-- A mapping takes a part: `put` succeeds and is `withPart`. -/
theorem put_of_isMapping (h : v.isMapping = true) (name : String) (x : Value) :
    v.put name x = .ok (withPart name x v) := by
  obtain ⟨f, es, hf, rfl⟩ := exists_assembles h
  rw [hf.put, hf.withPart]

/-- The function `discard` succeeds for every mapping, whether the key is there or not. -/
theorem exists_discard (h : v.isMapping = true) (name : String) :
    ∃ w, v.discard name = .ok w := by
  obtain ⟨f, es, hf, rfl⟩ := exists_assembles h
  exact ⟨_, hf.discard es name⟩

/-- A mapping stays one when a part is put into it. -/
theorem isMapping_withPart (h : v.isMapping = true) (name : String) (x : Value) :
    (withPart name x v).isMapping = true := by
  obtain ⟨f, es, hf, rfl⟩ := exists_assembles h
  rw [hf.withPart]
  exact hf.isMapping _

/-- Of two parts that `withPart` puts under one name, the later one stays. -/
theorem withPart_withPart (h : v.isMapping = true) (name : String) (x y : Value) :
    withPart name x (withPart name y v) = withPart name x v := by
  obtain ⟨f, es, hf, rfl⟩ := exists_assembles h
  rw [hf.withPart, hf.withPart, hf.withPart, Entries.put_put (Scalar.str_beq_self name)]

/-- A part may be replaced before or after another one is put under a name of its own. -/
theorem withPart_withPart_withPart (h : v.isMapping = true) {name other : String}
    (hne : name ≠ other) (x y z : Value) :
    withPart name x (withPart other y (withPart name z v))
      = withPart other y (withPart name x v) := by
  obtain ⟨f, es, hf, rfl⟩ := exists_assembles h
  rw [hf.withPart, hf.withPart, hf.withPart, hf.withPart, hf.withPart,
    Entries.put_put_put (fun j hj => Scalar.beq_str_of_ne hne hj) (Scalar.str_beq_self name)]

/-- A part that was put in is found by `item`. -/
theorem item_withPart (h : v.isMapping = true) (hx : ∀ nodes, x.within nodes = x) :
    (withPart name x v).item name = .ok x := by
  obtain ⟨f, es, hf, rfl⟩ := exists_assembles h
  rw [hf.withPart]
  exact hf.item hx (Entries.get?_put (Scalar.str_beq_self name))

/-- A part that was put in is found by `item` also after a part was put in under another name. -/
theorem item_withPart_withPart (h : v.isMapping = true) {other : String} (hne : other ≠ name)
    (hx : ∀ nodes, x.within nodes = x) (y : Value) :
    (withPart other y (withPart name x v)).item name = .ok x := by
  obtain ⟨f, es, hf, rfl⟩ := exists_assembles h
  rw [hf.withPart, hf.withPart]
  refine hf.item hx ?_
  rw [field?, Entries.get?_put_of_disagree (fun j hj => Scalar.beq_str_of_ne hne hj)
    (Scalar.beq_str_of_ne hne (Scalar.str_beq_self other)),
    Entries.get?_put (Scalar.str_beq_self name)]

/-- A mapping in which something was put with `withPart` counts as true. -/
theorem isTruthy_withPart (hv : v.isMapping = true) (name : String) (x : Value) :
    (withPart name x v).isTruthy = true := by
  obtain ⟨f, es, hf, rfl⟩ := exists_assembles hv
  obtain ⟨g, -, -, hentries⟩ := hf.entries (Entries.put (.str name) x es)
  rw [hf.withPart, isTruthy_of_entries? hentries]
  cases es with
  | nil => rfl
  | cons e es =>
    rw [Entries.put]
    split <;> rfl

/-- What a mapping has under a new key is taken away again by `discard`, which gives the mapping as
it was, with its order. -/
theorem discard_withPart (hv : v.isMapping = true) (h : v.contains name = .ok false) (x : Value) :
    (withPart name x v).discard name = .ok v := by
  obtain ⟨f, es, hf, rfl⟩ := exists_assembles hv
  obtain ⟨g, -, -, hentries⟩ := hf.entries es
  rw [contains_of_entries? hentries, Entries.has, Entries.get?_mapValues, Option.isSome_map] at h
  have hnew : Entries.has (Scalar.str name) es = false := Except.ok.inj h
  rw [hf.withPart, hf.discard, Entries.remove_put (Scalar.str_beq_self name) hnew]

end Value

end SchemaForge
