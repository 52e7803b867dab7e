import SchemaForge.Proofs.Number.Numeral
import SchemaForge.Proofs.Schema.Regeneration

/-!
# The form of what is read

What is read of a document, whatever was coerced on the way, has a form of its own
(`Schema.IsRead`): distinct keys, kinds that are texts and none of the reserved types, defaults that
are calls or no mappings, known cardinalities and targets that have a name.

That a kind is never reserved needs that no value but a text has the text `record`, `set` or
`query` (`text_not_reserved`): other types are taken by their text.
-/

namespace SchemaForge

/-! ## Reserved types -/

/-- The types that are not primitive kinds, and the empty text, which is no type. -/
def reservedTypes : List String := ["", "record", "set", "query"]

section Texts

open Number

variable {t : String} {c : Char} {rest : List Char}

/-- A text is not one of `reservedTypes` if its first character is none of theirs. -/
theorem not_reserved (ht : t.toList = c :: rest) (hc : c ≠ 'r' ∧ c ≠ 's' ∧ c ≠ 'q') :
    t ∉ reservedTypes := by
  obtain ⟨hr, hs, hq⟩ := hc
  intro hmem
  simp only [reservedTypes, List.mem_cons, List.not_mem_nil, or_false] at hmem
  rcases hmem with rfl | rfl | rfl | rfl
  · cases ht
  · exact hr (List.cons.inj ht).1.symm
  · exact hs (List.cons.inj ht).1.symm
  · exact hq (List.cons.inj ht).1.symm

/-- A text with a part in front is not one of `reservedTypes` if this part does not begin like
one. -/
theorem append_not_reserved {front : String} (back : String) (ht : front.toList = c :: rest)
    (hc : c ≠ 'r' ∧ c ≠ 's' ∧ c ≠ 'q') : front ++ back ∉ reservedTypes :=
  not_reserved (by rw [String.toList_append, ht, List.cons_append]) hc

/-- No digit is the first letter of `record`, `set` or `query`. -/
theorem digitChar_ne {d : ℕ} (hd : d < 10) :
    digitChar d ≠ 'r' ∧ digitChar d ≠ 's' ∧ digitChar d ≠ 'q' := by
  interval_cases d <;> decide

/-- No reserved type begins like a number with a sign, so that a type that is a number is a kind of
its own. -/
theorem signed_not_reserved {negative : Bool} {n : Numeral} (h : n.WellFormed)
    (ht : t.toList = signChars negative ++ n.chars) : t ∉ reservedTypes := by
  obtain ⟨d, hd, rest, hn⟩ := Numeral.exists_chars_eq_cons h
  rw [hn] at ht
  cases negative with
  | true => exact not_reserved ht (by decide)
  | false => exact not_reserved ht (digitChar_ne hd)

/-- A padded number begins with a digit, be it a zero or one of its own. -/
theorem exists_padded_eq_cons (width n : ℕ) :
    ∃ d < 10, ∃ rest, (padded width n).toList = digitChar d :: rest := by
  obtain ⟨d, more, hd⟩ := List.exists_cons_of_ne_nil (digitValues_ne_nil n)
  have hlt : d < 10 := digitValues_lt (hd ▸ List.mem_cons_self)
  rw [padded, String.toList_ofList, digits_eq_map, hd, List.map_cons]
  cases width - (digitChar d :: more.map digitChar).length with
  | zero => exact ⟨d, hlt, _, rfl⟩
  | succ k => exact ⟨0, by decide, List.replicate k '0' ++ digitChar d :: more.map digitChar, rfl⟩

/-- The text of a date or time is no reserved type, since it begins with a digit. -/
theorem Timestamp.text_not_reserved (time : Timestamp) : time.text ∉ reservedTypes := by
  obtain ⟨d, hd, rest, hyear⟩ := exists_padded_eq_cons 4 time.year
  have hdate : ∀ back, (padded 4 time.year ++ back) ∉ reservedTypes :=
    fun back => append_not_reserved back hyear (digitChar_ne hd)
  unfold Timestamp.text
  cases time.clock with
  | none =>
    dsimp only
    rw [String.append_assoc, String.append_assoc, String.append_assoc]
    exact hdate _
  | some clock =>
    dsimp only
    simp only [String.append_assoc]
    exact hdate _

/-- The quotes that `Text.quoteFor` chooses begin none of the reserved types. -/
theorem quoteFor_ne (cs : List Char) :
    Text.quoteFor cs ≠ 'r' ∧ Text.quoteFor cs ≠ 's' ∧ Text.quoteFor cs ≠ 'q' := by
  unfold Text.quoteFor
  split_ifs <;> decide

/-- The form of a scalar in messages is no reserved type: texts have quotes around them, and the
rest begins otherwise. -/
theorem Scalar.display_not_reserved (s : Scalar) : s.display ∉ reservedTypes := by
  -- The form of every kind of scalar begins with a character that no reserved type begins with, or
  -- is one of a few texts.
  cases s with
  | null => decide
  | bool b => cases b <;> decide
  | int n => exact signed_not_reserved (wellFormed_digits _) (intText_toList n)
  | float x =>
    cases x with
    | nan =>
      rw [Scalar.display, Double.text]
      decide
    | infinite negative => cases negative <;> decide
    | finite negative b f =>
      obtain ⟨n, hn, -, ht, -⟩ := exists_numeral_text plainLayout negative b f
      exact signed_not_reserved hn ht
  | str s => exact not_reserved String.toList_ofList (quoteFor_ne _)
  | time time =>
    rw [Scalar.display, Timestamp.display]
    cases time.clock with
    | none =>
      dsimp only
      simp only [String.append_assoc]
      exact append_not_reserved _ (show _ = 'd' :: "atetime.date(".toList from rfl) (by decide)
    | some clock =>
      dsimp only
      simp only [String.append_assoc]
      exact append_not_reserved _ (show _ = 'd' :: "atetime.datetime(".toList from rfl) (by decide)
  | bytes b => exact not_reserved String.toList_ofList (by decide)

/-- A sequence of fixed length is shown in brackets, and so is none of the `reservedTypes`. -/
theorem Value.tupleDisplay_not_reserved (parts : List String) :
    Value.tupleDisplay parts ∉ reservedTypes := by
  unfold Value.tupleDisplay
  split
  · rw [String.append_assoc]
    exact append_not_reserved _ (show _ = '(' :: [] from rfl) (by decide)
  · rw [String.append_assoc]
    exact append_not_reserved _ (show _ = '(' :: [] from rfl) (by decide)

/-- The form of a tree in messages is no reserved type: containers begin with a bracket or a name of
theirs. -/
theorem Value.displayTree_not_reserved (v : Value) : v.displayTree ∉ reservedTypes := by
  -- No reserved type begins with a bracket or a brace.
  have hopen : ∀ back, "[" ++ back ∉ reservedTypes := fun back =>
    append_not_reserved back (show _ = '[' :: [] from rfl) (by decide)
  have hbrace : ∀ back, "\x7b" ++ back ∉ reservedTypes := fun back =>
    append_not_reserved back (show _ = '\x7b' :: [] from rfl) (by decide)
  unfold Value.displayTree
  cases v with
  | scalar s => exact s.display_not_reserved
  | list items =>
    dsimp only
    rw [String.append_assoc]
    exact hopen _
  | tuple items => exact tupleDisplay_not_reserved _
  | mapping entries =>
    dsimp only
    rw [String.append_assoc]
    exact hbrace _
  | set members =>
    dsimp only
    split_ifs
    · decide
    · rw [String.append_assoc]
      exact hbrace _
  | function name arguments =>
    dsimp only
    simp only [String.append_assoc]
    exact append_not_reserved _ (show _ = 'F' :: "unctionCall(name=".toList from rfl) (by decide)
  | call path arguments =>
    dsimp only
    simp only [String.append_assoc]
    exact append_not_reserved _ (show _ = 'C' :: "all(name=".toList from rfl) (by decide)
  | knot =>
    dsimp only
    decide
  | link _ keyed =>
    dsimp only
    cases keyed <;> decide

end Texts

/-- No value but a text has a text that is one of `reservedTypes`. -/
theorem text_not_reserved_or (v : Value) : (∃ t, v = .str t) ∨ v.text ∉ reservedTypes := by
  cases v with
  | scalar s =>
    cases s with
    | null => exact .inr (Scalar.display_not_reserved .null)
    | bool b => exact .inr (Scalar.display_not_reserved (.bool b))
    | int n => exact .inr (Scalar.display_not_reserved (.int n))
    | float x => exact .inr (Scalar.display_not_reserved (.float x))
    | str t => exact .inl ⟨t, rfl⟩
    | time time => exact .inr time.text_not_reserved
    | bytes b => exact .inr (Scalar.display_not_reserved (.bytes b))
  | _ => exact .inr (Value.displayTree_not_reserved _)

/-- A type that counts as true and is none of the reserved texts has a text that is not reserved
either. So the kind that is read of it stays a primitive kind when it is read again. -/
theorem text_not_reserved {v : Value} (ht : v.isTruthy = true)
    (hrecord : v.same (.str "record") = false) (hset : v.same (.str "set") = false)
    (hquery : v.same (.str "query") = false) : v.text ∉ reservedTypes := by
  rcases text_not_reserved_or v with ⟨t, rfl⟩ | h
  · show t ∉ reservedTypes
    intro hmem
    simp only [reservedTypes, List.mem_cons, List.not_mem_nil, or_false] at hmem
    rcases hmem with rfl | rfl | rfl | rfl
    · cases ht
    · cases hrecord
    · cases hset
    · cases hquery
  · exact h

/-- The text of a value that counts as true is not empty, whatever kind of value it is. -/
theorem text_ne_empty {v : Value} (ht : v.isTruthy = true) : v.text ≠ "" := by
  rcases text_not_reserved_or v with ⟨t, rfl⟩ | h
  · rintro (rfl : t = "")
    cases ht
  · exact fun hempty => h (hempty ▸ List.mem_cons_self)

/-! ## What is read -/

/-- Settings as they are read: a default is a call, or it is no mapping. -/
def Options.IsRead (o : Options) : Prop := ∀ d ∈ o.default, d.entries? = none

/-- Attributes as they are read: kinds are texts that are not reserved, cardinalities are known,
targets have a name, and records have distinct keys and no repeated optional key. -/
inductive Attribute.IsRead : Attribute → Prop
  /-- An attribute of a kind that is not reserved. -/
  | primitive {kind : String} {o : Options} (hk : kind ∉ reservedTypes) (ho : o.IsRead) :
      IsRead (.primitive (.str kind) o)
  /-- A set of such a kind. -/
  | set {kind : String} {o o' : Options} (hk : kind ∉ reservedTypes) (ho : o.IsRead)
      (ho' : o'.IsRead) : IsRead (.set (.primitive (.str kind) o) o')
  /-- A record with distinct keys. -/
  | record {properties : List (String × Attribute)} {optional : List String}
      (hn : (Entries.keys properties).Nodup) (h : ∀ p ∈ properties, IsRead p.2) :
      IsRead (.record properties optional)
  /-- A relation to one or many members of a collection that has a name. -/
  | relation {cardinality : Value} {target : String} {query : Query}
      (hc : cardinality ∈ cardinalities) (ht : target ≠ "") :
      IsRead (.relation cardinality (.str target) query)

/-- Attributes under distinct keys, each of them in the form of what is read. -/
structure AreRead (properties : List (String × Attribute)) : Prop where
  /-- The keys are distinct. -/
  nodup : (Entries.keys properties).Nodup
  /-- The attributes are as they are read. -/
  isRead : ∀ p ∈ properties, p.2.IsRead

/-- A schema as it is read: its collections have distinct names, and their attributes are as they
are read. -/
structure Schema.IsRead (s : Schema) : Prop where
  /-- The names are distinct. -/
  nodup : (Entries.keys s.collections).Nodup
  /-- The attributes of the collections are as they are read. -/
  areRead : ∀ p ∈ s.collections, AreRead p.2.schema.properties

section Reading

variable {nodes : List Value} {turns : ℕ} {key : Option String} {v : Value} {a : Attribute}
  {es : List (Scalar × Value)} {ps done : List (String × Attribute)} {o : Options}

/-- A default is read as a function or as what is no mapping, so that it cannot be taken for a
function the next time. -/
theorem entries?_defaultOfValue {d : Value} (h : defaultOfValue v = .ok d) :
    d.entries? = none := by
  unfold defaultOfValue at h
  split at h
  · split at h
    · obtain ⟨arguments, -, h⟩ := Outcome.bind_eq_ok.mp h
      cases h
      rfl
    · cases h
  · rename_i hnone
    cases h
    exact hnone

/-- What `Options.ofValue` reads has the form `Options.IsRead`. -/
theorem Options.isRead_ofValue (h : Options.ofValue v = .ok o) : o.IsRead := by
  unfold Options.ofValue at h
  -- Only settings that have a default are asked for it.
  split at h
  · cases h
    exact fun d hd => nomatch hd
  · obtain ⟨es, -, h⟩ := Outcome.bind_eq_ok.mp h
    split at h
    · cases h
      exact fun d hd => nomatch hd
    · obtain ⟨d, hd, h⟩ := Outcome.bind_eq_ok.mp h
      cases h
      rintro _ ⟨⟩
      exact entries?_defaultOfValue hd

/-- What is read as a relation has a target that counts as true in its query. -/
theorem isTruthy_target (h : relationOfEntries es key = .ok a) :
    ∃ query, (fieldOf "query" es).entries? = some query ∧
      (fieldOf "collectionName" query).isTruthy = true := by
  obtain ⟨query, hquery, h⟩ := Outcome.bind_eq_ok.mp h
  refine ⟨query, entriesOf_eq_ok.mp hquery, ?_⟩
  dsimp only at h
  split at h
  · cases h
  · rename_i ht
    simpa using ht

/-- What `relationOfEntries` reads has the form `Attribute.IsRead`. -/
theorem isRead_relationOfEntries (h : relationOfEntries es key = .ok a) : a.IsRead := by
  obtain ⟨query, hquery, ht⟩ := isTruthy_target h
  obtain ⟨query', c, hquery', -, hone, rfl⟩ := relationOfEntries_eq_ok h
  cases entries_unique hquery hquery'
  exact .relation (mem_cardinalities hone) (text_ne_empty ht)

/-- Whatever attribute is read of a part among these nodes has the form `Attribute.IsRead`. -/
def ReadsInForm (nodes : List Value) (turns : ℕ) (key : Option String) (p : Value) : Prop :=
  ∀ a, attributeOfPart nodes turns key p = .ok a → a.IsRead

/-- Whatever attributes are read of a part among these nodes have the form `AreRead`. -/
def ReadsAllInForm (nodes : List Value) (turns : ℕ) (p : Value) : Prop :=
  ∀ ps, propertiesOfPart nodes turns p = .ok ps → AreRead ps

/-- Whatever attributes are read of entries and put to others that are in form have the form
`AreRead`. -/
def ReadsEntriesInForm (nodes : List Value) (turns : ℕ) (entries : List (Scalar × Value))
    (done : List (String × Attribute)) : Prop :=
  AreRead done → ∀ ps, propertiesOfEntries nodes turns entries done = .ok ps → AreRead ps

/-- No attributes are in the form that reading gives. -/
theorem areRead_nil : AreRead [] :=
  ⟨List.nodup_nil, fun _ hp => absurd hp List.not_mem_nil⟩

/-- A mapping is read in form if its attributes and its items are. The cases are those of
`attributeOfPart_mapping`. -/
theorem readsInForm_mapping
    (hproperties : ∀ v, Value.field? "properties" es = some v → ReadsAllInForm nodes turns v)
    (hitems : ∀ v, Value.field? "items" es = some v → ReadsInForm nodes turns key v) :
    ReadsInForm nodes turns key (.mapping es) := by
  intro a h
  have ht := isTruthy_type h
  -- A record, a set, a relation or an attribute of any other type.
  rcases attributeOfPart_mapping h rfl with ⟨-, ps, optional, hps, -, rfl⟩ |
    ⟨-, v, kind, o, o', hi, hv, ho, rfl⟩ | ⟨-, h⟩ | ⟨hrecord, hset, hquery, o, ho, rfl⟩
  · have hread : AreRead ps := by
      cases hfound : Value.field? "properties" es with
      | none =>
        rw [hfound] at hps
        cases hps
        exact areRead_nil
      | some v =>
        rw [hfound] at hps
        exact hproperties v hfound ps hps
    exact .record hread.nodup hread.isRead
  · cases hitems v hi _ hv with
    | primitive hk hitem => exact .set hk hitem (Options.isRead_ofValue ho)
  · exact isRead_relationOfEntries h
  · exact .primitive (text_not_reserved ht hrecord hset hquery) (Options.isRead_ofValue ho)

/-- Attributes stay in form when one more that is in form is put to them. -/
theorem AreRead.put {name : String} (h : AreRead done) (ha : a.IsRead) :
    AreRead (Entries.put name a done) := by
  refine ⟨Entries.nodup_keys_put h.nodup, fun p hp => ?_⟩
  rcases Entries.mem_put hp with rfl | hp
  · exact ha
  · exact h.isRead p hp

/-- All that is read is read in form, by `reading_induct`. -/
theorem readsInForm :
    (∀ nodes turns key p, ReadsInForm nodes turns key p) ∧
      (∀ nodes turns p, ReadsAllInForm nodes turns p) ∧
        ∀ nodes turns entries done, ReadsEntriesInForm nodes turns entries done := by
  apply reading_induct
  case failed => exact fun _ _ _ _ hp a h => absurd h (hp a)
  case mapping => exact fun _ _ _ _ => readsInForm_mapping
  case knot => exact fun _ _ _ _ _ _ hn ih a h => ih a (attributeOfPart_knot hn ▸ h)
  case link => exact fun _ _ _ _ _ _ hn ih a h => ih a (attributeOfPart_link hn ▸ h)
  case allFailed => exact fun _ _ _ hp ps h => absurd h (hp ps)
  case allMapping =>
    intro nodes turns entries ih ps h
    rw [propertiesOfPart] at h
    exact ih areRead_nil ps h
  case allKnot => exact fun _ _ _ _ _ hn ih ps h => ih ps (propertiesOfPart_knot hn ▸ h)
  case allLink => exact fun _ _ _ _ _ hn ih ps h => ih ps (propertiesOfPart_link hn ▸ h)
  -- Parts that hold no attributes.
  case noKnot =>
    intro nodes turns n nodes' hn ps h
    rw [propertiesOfPart_knot_none hn] at h
    cases h
    exact areRead_nil
  case noLink =>
    intro nodes turns n keyed hn ps h
    rw [propertiesOfPart_link_none hn] at h
    cases h
    exact areRead_nil
  case other =>
    intro nodes turns p hp ht ps h
    rw [propertiesOfPart_isOther hp, if_neg (Bool.eq_false_iff.mp ht)] at h
    cases h
    exact areRead_nil
  case nil =>
    intro nodes turns done hdone ps h
    rw [propertiesOfEntries] at h
    cases h
    exact hdone
  case cons =>
    intro nodes turns k v rest done ihv ihrest hdone ps h
    rw [propertiesOfEntries] at h
    obtain ⟨a, ha, h⟩ := Outcome.bind_eq_ok.mp h
    exact ihrest a (hdone.put (ihv a ha)) ps h

/-- The attributes of a collection that is read of a value are in form, at every depth. -/
theorem areRead_ofValue {c : Collection} (h : Collection.ofValue v = .ok c) :
    AreRead c.schema.properties := by
  obtain ⟨es, root, -, -, hproperties, -⟩ := c.exists_of_ofValue h
  exact readsInForm.2.1 [] 0 _ _ hproperties

/-- A schema that is read of a document is in form, whatever was coerced on the way. -/
theorem Schema.isRead_ofValue {s : Schema} (h : Schema.ofValue v = .ok (some s)) : s.IsRead := by
  obtain ⟨document, ds, -, -, hd, heq⟩ := s.exists_of_ofValue h
  refine ⟨heq ▸ Entries.nodup_keys_putAll List.nodup_nil, fun p hp => ?_⟩
  obtain ⟨d, hmem, hread⟩ := exists_of_mem_ofPairs (heq ▸ hp)
  rw [hread]
  exact areRead_ofValue (hd d hmem)

end Reading

end SchemaForge
