import SchemaForge.Json.Writer
import SchemaForge.Proofs.Outcome
import SchemaForge.Proofs.Source.Phrases
import SchemaForge.Proofs.Value.Knot

/-!
# Written JSON read as source

Conditions, orders and rules stand in a module as JSON (sections 4.2 and 4.3 of the specification),
and JSON text is source text: what is written for a tree denotes its `image`, in which sequences of
fixed length are lists and keys are texts (`denotes_write`). Of two equal keys it has the last one,
as a reader does. If in every mapping the texts of the keys are distinct (`DistinctKeys`), the image
is written like the tree itself (`write_image`).
-/

namespace SchemaForge.Json

/-- The text of a key in an object, as the writer makes it of a scalar: names for the absent and the
truth values, and numbers as they are written. -/
def keyText : Scalar → String
  | .null => "null"
  | .bool b => if b then "true" else "false"
  | .int n => Number.intText n
  | .float x => x.text Number.jsonLayout
  | .str s => s
  | .time _ => ""
  | .bytes _ => ""

mutual

/-- What is read back from the JSON text of a tree: sequences of fixed length become lists, keys
become texts, and of two equal keys the last one counts. -/
def image : Value → Value
  | .scalar s => .scalar s
  | .list items => .list (images items)
  | .tuple items => .list (images items)
  | .mapping entries => .record (Entries.ofPairs (imageFields entries))
  | _ => .null

/-- What is read back from the items of an array: their `image`s. -/
def images : List Value → List Value
  | [] => []
  | v :: rest => image v :: images rest

/-- What is read back from the members of an object: the `image`s under the texts of their keys. -/
def imageFields : List (Scalar × Value) → List (String × Value)
  | [] => []
  | (k, v) :: rest => (keyText k, image v) :: imageFields rest

end

mutual

/-- In every mapping of a tree the keys have distinct texts, so that no member is lost when an
object is read. -/
def DistinctKeys : Value → Prop
  | .list items => AllDistinct items
  | .tuple items => AllDistinct items
  | .mapping entries => (entries.map fun e => keyText e.1).Nodup ∧ EntriesDistinct entries
  | _ => True

/-- The property `DistinctKeys` holds of every one of several trees. -/
def AllDistinct : List Value → Prop
  | [] => True
  | v :: rest => DistinctKeys v ∧ AllDistinct rest

/-- The property `DistinctKeys` holds of the values of all entries. -/
def EntriesDistinct : List (Scalar × Value) → Prop
  | [] => True
  | (_, v) :: rest => DistinctKeys v ∧ EntriesDistinct rest

end

open Source (Reads Denotes SpellsOne IsMember IsGap plainMarks)

variable {style : Style} {depth : ℕ} {text : String} {texts : List String}

/-! ## Single values -/

/-- A scalar other than a text is written as its `keyText`, so that a key is the quoted form of what
the scalar is written as. -/
theorem eq_keyText_of_scalar {k : Scalar} (hk : ∀ s, k ≠ .str s) (h : style.scalar k = .ok text) :
    text = keyText k := by
  cases k with
  | str s => exact absurd rfl (hk s)
  | null => exact (Except.ok.inj h).symm
  | bool b => exact (Except.ok.inj h).symm
  | int n => exact (Except.ok.inj h).symm
  | float x =>
    rw [Style.scalar, Style.number] at h
    split_ifs at h
    exact (Except.ok.inj h).symm
  | time t => cases h
  | bytes b => cases h

/-- A written key is the quoted `keyText` of the key. -/
theorem key_eq_ok {k : Scalar} (h : style.key k = .ok text) : text = quote (keyText k) := by
  by_cases hk : ∃ s, k = .str s
  · obtain ⟨s, rfl⟩ := hk
    exact (Except.ok.inj h).symm
  · have hk' : ∀ s, k ≠ .str s := fun s heq => hk ⟨s, heq⟩
    rw [Style.key.eq_2 style k hk'] at h
    obtain ⟨t, ht, rfl⟩ := Outcome.map_eq_ok.mp h
    rw [eq_keyText_of_scalar hk' ht]

/-- What is written for a scalar denotes the scalar, unless NaN and the infinities have names. -/
theorem denotes_scalar (hstyle : style.namesNonFinite = false) {s : Scalar}
    (h : style.scalar s = .ok text) : Denotes text (.scalar s) := by
  cases s with
  | null =>
    cases h
    exact Source.denotes_constant (by simp [Source.constants])
  | bool b =>
    cases h
    cases b <;> exact Source.denotes_constant (by simp [Source.constants])
  | int n =>
    cases h
    exact Source.denotes_intText n
  -- Without names for the others, a number with a text is finite.
  | float x =>
    rw [Style.scalar, Style.number, hstyle, Bool.or_false] at h
    split_ifs at h with hx
    cases h
    exact Source.denotes_text _ hx
  | str s =>
    cases h
    exact Source.denotes_quote s
  | time t => cases h
  | bytes b => cases h

/-! ## Layout -/

/-- A line break with its margin (`Style.lineBreak`) consists of characters that are gaps, in every
style. -/
theorem isGap_lineBreak (style : Style) (depth : ℕ) :
    ∀ c ∈ (style.lineBreak depth).toList, IsGap c := by
  obtain ⟨indent, names⟩ := style
  intro c hc
  rw [Style.lineBreak] at hc
  cases indent with
  | none => exact absurd hc List.not_mem_nil
  | some width =>
    dsimp only at hc
    rw [String.toList_ofList] at hc
    rcases List.mem_cons.mp hc with rfl | hc
    · exact .inr rfl
    · exact .inl (List.eq_of_mem_replicate hc)

/-- A `Style.separator` is a comma and gaps behind it, in every style. -/
theorem separator_toList (style : Style) (depth : ℕ) :
    ∃ gaps, (style.separator depth).toList = ',' :: gaps ∧ ∀ c ∈ gaps, IsGap c := by
  have hbreak := isGap_lineBreak style depth
  obtain ⟨indent, names⟩ := style
  cases indent with
  | none => exact ⟨[' '], Source.toList_comma, Source.isGap_space⟩
  | some width => exact ⟨_, String.toList_append, hbreak⟩

/-- The function `enclose` puts items in a row between its brackets, with gaps before and behind
them. -/
theorem enclose_toList (style : Style) (depth : ℕ) (opening closing : String)
    (texts : List String) :
    ∃ before behind, (∀ c ∈ before, IsGap c) ∧ (∀ c ∈ behind, IsGap c) ∧
      (style.enclose depth opening closing texts).toList
        = opening.toList ++ (before ++ ((Text.join (style.separator (depth + 1)) texts).toList
          ++ (behind ++ closing.toList))) := by
  cases texts with
  | nil => exact ⟨[], [], Source.isGap_nil, Source.isGap_nil, String.toList_append⟩
  | cons text texts =>
    refine ⟨_, _, isGap_lineBreak style (depth + 1), isGap_lineBreak style depth, ?_⟩
    show (opening ++ style.lineBreak (depth + 1) ++ Text.join (style.separator (depth + 1))
      (text :: texts) ++ style.lineBreak depth ++ closing).toList = _
    simp only [String.toList_append, List.append_assoc]

/-- Items that denote values denote the list of them between brackets. -/
theorem denotes_array {vs : List Value} (h : List.Forall₂ Denotes texts vs) :
    Denotes (style.enclose depth "[" "]" texts) (.list vs) := by
  obtain ⟨before, behind, hbefore, hbehind, htext⟩ := enclose_toList style depth "[" "]" texts
  obtain ⟨gaps, hsep, hgaps⟩ := separator_toList style (depth + 1)
  have hitems := (Source.itemsListing (by decide : ']' ∈ plainMarks) (by decide)).spells_join
    hsep hgaps hbehind h
  have harray := Reads.array (Reads.skip hbefore hitems)
  rw [Denotes, htext]
  exact harray

/-- Members that spell fields denote the mapping that is made of these between braces. -/
theorem denotes_object {fields : List (String × Value)}
    (h : List.Forall₂ (SpellsOne IsMember) texts fields) :
    Denotes (style.enclose depth "\x7b" "\x7d" texts) (.record (Entries.ofPairs fields)) := by
  obtain ⟨before, behind, hbefore, hbehind, htext⟩ :=
    enclose_toList style depth "\x7b" "\x7d" texts
  obtain ⟨gaps, hsep, hgaps⟩ := separator_toList style (depth + 1)
  have hmembers := Source.membersListing.spells_join hsep hgaps hbehind h
  have hobject := Reads.object (Reads.skip hbefore hmembers)
  rw [textEntries.ofPairs_eq] at hobject
  rw [Denotes, htext]
  exact hobject

/-! ## Trees -/

/-- The keys that are read back are the `keyText`s of the keys that were written. -/
theorem keys_imageFields (entries : List (Scalar × Value)) :
    Entries.keys (imageFields entries) = entries.map fun e => keyText e.1 := by
  induction entries with
  | nil => rfl
  | cons e entries ih =>
    rw [imageFields, Entries.keys, List.map_cons, List.map_cons]
    exact congrArg (keyText e.1 :: ·) ih

mutual

/-- What is written for a tree denotes its `image`, at every depth. The induction is on the tree,
together with `denotes_writeAll` and `denotes_writeEntries`. -/
theorem denotes_write (hstyle : style.namesNonFinite = false) (v : Value) (depth : ℕ)
    {text : String} (h : style.write depth v = .ok text) : Denotes text (image v) := by
  -- A list and a tuple are written alike, and what is none of the kinds of JSON has no text.
  cases v with
  | scalar s => exact denotes_scalar hstyle h
  | list items =>
    obtain ⟨texts, htexts, h⟩ := Outcome.bind_eq_ok.mp h
    cases h
    exact denotes_array (denotes_writeAll hstyle items (depth + 1) htexts)
  | tuple items =>
    obtain ⟨texts, htexts, h⟩ := Outcome.bind_eq_ok.mp h
    cases h
    exact denotes_array (denotes_writeAll hstyle items (depth + 1) htexts)
  | mapping entries =>
    obtain ⟨texts, htexts, h⟩ := Outcome.bind_eq_ok.mp h
    cases h
    exact denotes_object (denotes_writeEntries hstyle entries (depth + 1) htexts)
  | set members => cases h
  | function name arguments => cases h
  | call path arguments => cases h
  | knot n nodes => cases h
  | link n keyed => cases h

/-- What is written for several trees denotes their `image`s, one by one. -/
theorem denotes_writeAll (hstyle : style.namesNonFinite = false) (vs : List Value) (depth : ℕ)
    {texts : List String} (h : style.writeAll depth vs = .ok texts) :
    List.Forall₂ Denotes texts (images vs) := by
  cases vs with
  | nil =>
    cases h
    exact .nil
  | cons v rest =>
    obtain ⟨text, htext, h⟩ := Outcome.bind_eq_ok.mp h
    obtain ⟨texts, htexts, h⟩ := Outcome.bind_eq_ok.mp h
    cases h
    exact .cons (denotes_write hstyle v depth htext) (denotes_writeAll hstyle rest depth htexts)

/-- The members that are written for entries spell the fields that are read back, `imageFields`. -/
theorem denotes_writeEntries (hstyle : style.namesNonFinite = false)
    (entries : List (Scalar × Value)) (depth : ℕ) {texts : List String}
    (h : style.writeEntries depth entries = .ok texts) :
    List.Forall₂ (SpellsOne IsMember) texts (imageFields entries) := by
  cases entries with
  | nil =>
    cases h
    exact .nil
  | cons e rest =>
    obtain ⟨k, v⟩ := e
    obtain ⟨key, hkey, h⟩ := Outcome.bind_eq_ok.mp h
    obtain ⟨text, htext, h⟩ := Outcome.bind_eq_ok.mp h
    obtain ⟨texts, htexts, h⟩ := Outcome.bind_eq_ok.mp h
    cases h
    -- The key is written as the text that the image has for it, whatever scalar it was.
    rw [key_eq_ok hkey]
    exact .cons (Source.spellsOne_quote _ (denotes_write hstyle v depth htext))
      (denotes_writeEntries hstyle rest depth htexts)

end

/-! ## The image as a tree -/

mutual

/-- An image is a tree: what is read from JSON has neither knots nor links. -/
theorem isTree_image (v : Value) : (image v).IsTree := by
  cases v with
  | list items => exact .list (isTree_images items)
  | tuple items => exact .list (isTree_images items)
  | mapping entries =>
    refine .mapping fun e he => ?_
    obtain ⟨f, hf, rfl⟩ := List.mem_map.mp he
    rcases Entries.mem_putAll hf with hnil | hf
    · cases hnil
    · exact isTree_imageFields entries f hf
  | _ => exact .scalar

/-- The images of several values are trees, as there is no reference in a JSON text. -/
theorem isTree_images (vs : List Value) : ∀ w ∈ images vs, w.IsTree := by
  cases vs with
  | nil => exact fun _ hw => absurd hw List.not_mem_nil
  | cons v rest =>
    intro w hw
    rcases List.mem_cons.mp hw with rfl | hw
    · exact isTree_image v
    · exact isTree_images rest w hw

/-- What is read back under the keys of an object (`imageFields`) has neither knots nor links, as
`IsTree` says. -/
theorem isTree_imageFields (entries : List (Scalar × Value)) :
    ∀ f ∈ imageFields entries, f.2.IsTree := by
  cases entries with
  | nil => exact fun _ hf => absurd hf List.not_mem_nil
  | cons e rest =>
    intro f hf
    rcases List.mem_cons.mp hf with rfl | hf
    · exact isTree_image e.2
    · exact isTree_imageFields rest f hf

end

mutual

/-- The image of a tree with `DistinctKeys` is written like the tree itself, so that a second round
of writing and reading changes nothing. -/
theorem write_image (v : Value) (depth : ℕ) {text : String} (h : style.write depth v = .ok text)
    (hk : DistinctKeys v) : style.write depth (image v) = .ok text := by
  cases v with
  | scalar s => exact h
  | list items =>
    obtain ⟨texts, htexts, h⟩ := Outcome.bind_eq_ok.mp h
    exact Outcome.bind_eq_ok.mpr ⟨texts, writeAll_images items (depth + 1) htexts hk, h⟩
  | tuple items =>
    obtain ⟨texts, htexts, h⟩ := Outcome.bind_eq_ok.mp h
    exact Outcome.bind_eq_ok.mpr ⟨texts, writeAll_images items (depth + 1) htexts hk, h⟩
  | mapping entries =>
    obtain ⟨texts, htexts, h⟩ := Outcome.bind_eq_ok.mp h
    -- Without a key twice, the image keeps all entries and their order.
    have hn : (Entries.keys (imageFields entries)).Nodup := keys_imageFields entries ▸ hk.1
    rw [image, Entries.ofPairs_of_nodup hn]
    exact Outcome.bind_eq_ok.mpr
      ⟨texts, writeEntries_imageFields entries (depth + 1) htexts hk.2, h⟩
  | set members => cases h
  | function name arguments => cases h
  | call path arguments => cases h
  | knot n nodes => cases h
  | link n keyed => cases h

/-- The images of trees with `DistinctKeys` are written like the trees. -/
theorem writeAll_images (vs : List Value) (depth : ℕ) {texts : List String}
    (h : style.writeAll depth vs = .ok texts) (hk : AllDistinct vs) :
    style.writeAll depth (images vs) = .ok texts := by
  cases vs with
  | nil => exact h
  | cons v rest =>
    obtain ⟨text, htext, h⟩ := Outcome.bind_eq_ok.mp h
    obtain ⟨texts, htexts, h⟩ := Outcome.bind_eq_ok.mp h
    exact Outcome.bind_eq_ok.mpr ⟨text, write_image v depth htext hk.1,
      Outcome.bind_eq_ok.mpr ⟨texts, writeAll_images rest depth htexts hk.2, h⟩⟩

/-- The fields that are read back are written like the entries that they come from. -/
theorem writeEntries_imageFields (entries : List (Scalar × Value)) (depth : ℕ)
    {texts : List String} (h : style.writeEntries depth entries = .ok texts)
    (hk : EntriesDistinct entries) :
    style.writeEntries depth (textEntries (imageFields entries)) = .ok texts := by
  cases entries with
  | nil => exact h
  | cons e rest =>
    obtain ⟨k, v⟩ := e
    obtain ⟨key, hkey, h⟩ := Outcome.bind_eq_ok.mp h
    obtain ⟨text, htext, h⟩ := Outcome.bind_eq_ok.mp h
    obtain ⟨texts, htexts, h⟩ := Outcome.bind_eq_ok.mp h
    -- The image has a text for each key, which is written as the key was.
    have hquote : style.key (.str (keyText k)) = .ok key := by
      rw [key_eq_ok hkey]
      rfl
    exact Outcome.bind_eq_ok.mpr ⟨key, hquote, Outcome.bind_eq_ok.mpr ⟨text,
      write_image v depth htext hk.1, Outcome.bind_eq_ok.mpr ⟨texts,
        writeEntries_imageFields rest depth htexts hk.2, h⟩⟩⟩

end

end SchemaForge.Json
