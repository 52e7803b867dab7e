import Mathlib.Tactic.Basic
import SchemaForge.Proofs.Source.Spelling
import SchemaForge.Proofs.Value.Entries

/-!
# The grammar of expressions

The loader reads a subset of the language (section 6.4 of the specification). `Derives ss p` says
that tokens of the shapes `ss` are a phrase: a value, or what stands behind an opening mark up to
and with the closing one. The parser reads every such sequence of tokens as that phrase, whatever
follows it (`parses_of_derives`). It takes two steps of fuel for each token at most.
-/

namespace SchemaForge.Source

/-- What a sequence of tokens may be: a value, or the items or members behind an opening mark. -/
inductive Phrase where
  /-- A value. -/
  | value (v : Value)
  /-- Values up to a closing mark. -/
  | items (closing : String) (vs : List Value)
  /-- Members of an object up to its closing brace. -/
  | members (fields : List (String × Value))

/-- The marks that close an object, the arguments of a call and a list. -/
def closers : List String := ["\x7d", ")", "]"]

/-- The names that are values, each with its value. All other names are heads of calls. -/
def constants : List (String × Value) :=
  [("true", .bool true), ("false", .bool false), ("null", .null)]

/-- The shapes of the parts of a dotted name behind its first one: a point and a name for each. -/
def dottedShapes (path : List String) : List Shape :=
  path.flatMap fun part => [(.punctuation, "."), (.name, part)]

/-- A token of a shape stands for a key: a quoted text, a name or a number as it is written. -/
inductive IsKey : Shape → String → Prop
  /-- A quoted key. -/
  | string {x key : String} (h : ∀ position, decodeString ⟨.string, x, position⟩ = .ok key) :
      IsKey (.string, x) key
  /-- A key that is a name. -/
  | name {x : String} (h : x ∉ closers) : IsKey (.name, x) x

/-- Tokens of these shapes are a phrase. There is one case for each form of a value, and one for
each way in which items and members go on. -/
inductive Derives : List Shape → Phrase → Prop
  /-- A text. -/
  | string {x s : String} (h : ∀ position, decodeString ⟨.string, x, position⟩ = .ok s) :
      Derives [(.string, x)] (.value (.str s))
  /-- A number. -/
  | number {x : String} (h : x ∉ closers) : Derives [(.number, x)] (.value (decodeNumber x))
  /-- A constant. -/
  | constant {x : String} {v : Value} (h : (x, v) ∈ constants) : Derives [(.name, x)] (.value v)
  /-- An object. -/
  | object {ss : List Shape} {fields : List (String × Value)} (h : Derives ss (.members fields)) :
      Derives ((.punctuation, "\x7b") :: ss)
        (.value (.mapping (Entries.ofPairs (textEntries fields))))
  /-- An array. -/
  | array {ss : List Shape} {vs : List Value} (h : Derives ss (.items "]" vs)) :
      Derives ((.punctuation, "[") :: ss) (.value (.list vs))
  /-- A call of a dotted name. -/
  | call {name : String} {path : List String} {ss : List Shape} {vs : List Value}
      (hname : name ∉ Entries.keys constants) (hclose : name ∉ closers)
      (h : Derives ss (.items ")" vs)) :
      Derives ((.name, name) :: (dottedShapes path ++ (.punctuation, "(") :: ss))
        (.value (.call (name :: path) vs))
  /-- No further item. -/
  | noItem {closing : String} : Derives [(.punctuation, closing)] (.items closing [])
  /-- A last item without a comma. -/
  | lastItem {closing : String} {ss : List Shape} {v : Value} (hc : closing ∈ closers)
      (h : Derives ss (.value v)) :
      Derives (ss ++ [(.punctuation, closing)]) (.items closing [v])
  /-- An item with a comma behind it. -/
  | item {closing : String} {ss ts : List Shape} {v : Value} {vs : List Value}
      (hc : closing ∈ closers) (h : Derives ss (.value v)) (hs : Derives ts (.items closing vs)) :
      Derives (ss ++ (.punctuation, ",") :: ts) (.items closing (v :: vs))
  /-- No further member. -/
  | noMember : Derives [(.punctuation, "\x7d")] (.members [])
  /-- A last member without a comma. -/
  | lastMember {k : Shape} {key : String} {ss : List Shape} {v : Value} (hk : IsKey k key)
      (h : Derives ss (.value v)) :
      Derives (k :: (.punctuation, ":") :: (ss ++ [(.punctuation, "\x7d")])) (.members [(key, v)])
  /-- A member with a comma behind it. -/
  | member {k : Shape} {key : String} {ss ts : List Shape} {v : Value}
      {fields : List (String × Value)} (hk : IsKey k key) (h : Derives ss (.value v))
      (hs : Derives ts (.members fields)) :
      Derives (k :: (.punctuation, ":") :: (ss ++ (.punctuation, ",") :: ts))
        (.members ((key, v) :: fields))

/-- Every phrase has a token, so that the fuel that is counted by tokens suffices. -/
theorem Derives.ne_nil {ss : List Shape} {p : Phrase} (h : Derives ss p) : ss ≠ [] := by
  cases h <;> simp

/-! ## Single tokens -/

variable {stop : ℕ} {text : String} {t : Token} {ts rest : List Token}

/-- The reader `accept?` passes over a token with the wanted text. -/
theorem accept?_eq_some (h : t.shape = (.punctuation, text)) :
    accept? text (t :: rest) = some rest := by
  obtain ⟨kind, x, position⟩ := t
  cases h
  simp [accept?]

/-- The reader `accept?` leaves a token with another text, and a string whatever it says. -/
theorem accept?_eq_none (h : t.text = text → t.kind = .string) :
    accept? text (t :: rest) = none := by
  rw [accept?, if_neg]
  exact fun hn => hn.2 (h hn.1)

/-- The reader `expect` passes over a token with the wanted text. -/
theorem expect_eq_ok (h : t.shape = (.punctuation, text)) :
    expect stop text (t :: rest) = .ok ((), rest) := by
  obtain ⟨kind, x, position⟩ := t
  cases h
  simp [expect, next, bind, Except.bind, pure, Except.pure]

/-- The reader `decodeKey` reads the key that a token stands for. -/
theorem decodeKey_eq_ok {key : String} (h : IsKey t.shape key) : decodeKey t = .ok key := by
  obtain ⟨kind, x, position⟩ := t
  rw [Token.shape] at h
  cases h with
  | string h => exact h position
  | name h => rfl

/-- No key closes an object, so that where one stands `accept?` finds no closing brace and members
go on. -/
theorem accept?_of_isKey {key : String} (h : IsKey t.shape key) :
    accept? "\x7d" (t :: rest) = none := by
  obtain ⟨kind, x, position⟩ := t
  rw [Token.shape] at h
  refine accept?_eq_none fun hx => ?_
  cases h with
  | string h => rfl
  | name h =>
    obtain rfl : x = "\x7d" := hx
    exact absurd List.mem_cons_self h

/-- No value begins with a closing mark, so that items go on where one stands. -/
theorem accept?_of_derives {ss : List Shape} {v : Value} {closing : String}
    (hc : closing ∈ closers) (h : Derives ss (.value v)) (hts : ts.map Token.shape = ss) :
    accept? closing (ts ++ rest) = none := by
  have hcons : ∀ {s : Shape} {more : List Shape}, ts.map Token.shape = s :: more →
      (s.2 = closing → s.1 = .string) → accept? closing (ts ++ rest) = none := by
    intro s more heq hs
    obtain ⟨t, us, rfl, rfl, -⟩ := List.map_eq_cons_iff.mp heq
    rw [List.cons_append]
    exact accept?_eq_none hs
  have hne : ∀ x, x ∉ closers → x ≠ closing := fun x hx heq => hx (heq ▸ hc)
  -- A value begins with a string or with a token whose text is no closing mark.
  cases h with
  | string h => exact hcons hts fun _ => rfl
  | number h => exact hcons hts fun heq => absurd heq (hne _ h)
  | @constant x v h =>
    refine hcons hts fun heq => absurd heq (hne x ?_)
    simp only [constants, List.mem_cons, Prod.mk.injEq, List.not_mem_nil, or_false] at h
    rcases h with ⟨rfl, -⟩ | ⟨rfl, -⟩ | ⟨rfl, -⟩ <;> decide
  | object h => exact hcons hts fun heq => absurd heq (hne _ (by decide))
  | array h => exact hcons hts fun heq => absurd heq (hne _ (by decide))
  | call hname hclose h => exact hcons hts fun heq => absurd heq (hne _ hclose)

/-- The parser `parsePath` reads a dotted name up to what is no point. -/
theorem parsePath_dotted {path done : List String} (hts : ts.map Token.shape = dottedShapes path)
    (ht : t.text ≠ ".") :
    parsePath stop done (ts ++ t :: rest) = .ok (done.reverse ++ path, t :: rest) := by
  induction path generalizing done ts with
  | nil =>
    rw [List.map_eq_nil_iff.mp hts, List.nil_append, List.append_nil]
    have hnone : accept? "." (t :: rest) = none := accept?_eq_none fun h => absurd h ht
    unfold parsePath
    split
    · rfl
    · rename_i h
      rw [hnone] at h
      cases h
    · rename_i h
      rw [hnone] at h
      cases h
  | cons part path ih =>
    obtain ⟨point, us, rfl, hpoint, hus⟩ := List.map_eq_cons_iff.mp hts
    obtain ⟨name, vs, rfl, hname, hvs⟩ := List.map_eq_cons_iff.mp hus
    have hsome : accept? "." (point :: name :: vs ++ t :: rest) = some (name :: vs ++ t :: rest) :=
      accept?_eq_some hpoint
    unfold parsePath
    split
    · rename_i h
      rw [hsome] at h
      cases h
    · rename_i h
      rw [hsome] at h
      cases h
    · rename_i part' rest' h
      rw [hsome] at h
      cases h
      obtain ⟨kind, x, position⟩ := name
      cases hname
      -- The names that were read are in reverse, the last one in front.
      show parsePath stop (x :: done) (vs ++ t :: rest) = _
      rw [ih hvs, List.reverse_cons, List.append_assoc, List.singleton_append]

/-! ## Phrases -/

/-- What the parser makes of tokens that are a phrase, with two steps of fuel for each token and
whatever follows. -/
def Parses (ss : List Shape) : Phrase → Prop
  | .value v => ∀ (stop fuel : ℕ) (ts rest : List Token), ts.map Token.shape = ss →
      2 * ss.length ≤ fuel + 1 → parseValue stop fuel (ts ++ rest) = .ok (v, rest)
  | .items closing vs => ∀ (stop fuel : ℕ) (done : List Value) (ts rest : List Token),
      ts.map Token.shape = ss → 2 * ss.length ≤ fuel →
      parseItems stop closing fuel done (ts ++ rest) = .ok (done.reverse ++ vs, rest)
  | .members fields => ∀ (stop fuel : ℕ) (done : List (Scalar × Value)) (ts rest : List Token),
      ts.map Token.shape = ss → 2 * ss.length ≤ fuel →
      parseMembers stop fuel done (ts ++ rest)
        = .ok (Entries.putAll done (textEntries fields), rest)

variable {closing : String} {ss us : List Shape} {v : Value} {vs : List Value}
  {fields : List (String × Value)}

/-- A single token `Parses` as a value if one step of `parseValue` makes it one. -/
theorem parses_token {s : Shape} (h : ∀ (stop fuel : ℕ) (t : Token) (rest : List Token),
    t.shape = s → parseValue stop (fuel + 1) (t :: rest) = .ok (v, rest)) :
    Parses [s] (.value v) := by
  intro stop fuel ts rest hts hfuel
  obtain ⟨t, us, rfl, ht, hus⟩ := List.map_eq_cons_iff.mp hts
  rw [List.map_eq_nil_iff.mp hus, List.singleton_append]
  obtain ⟨fuel, rfl⟩ : ∃ n, fuel = n + 1 := ⟨fuel - 1, by simp at hfuel; omega⟩
  exact h stop fuel t rest ht

/-- A name among the constants is parsed as its value. -/
theorem parses_constant {x : String} (h : (x, v) ∈ constants) :
    Parses [(.name, x)] (.value v) := by
  refine parses_token fun stop fuel t rest ht => ?_
  obtain ⟨kind, x', position⟩ := t
  cases ht
  simp only [constants, List.mem_cons, Prod.mk.injEq, List.not_mem_nil, or_false] at h
  rcases h with ⟨rfl, rfl⟩ | ⟨rfl, rfl⟩ | ⟨rfl, rfl⟩ <;> rfl

/-- An object is parsed if its members are, and it is made of them in order, so that the last of
equal keys counts. -/
theorem parses_object (h : Parses ss (.members fields)) :
    Parses ((.punctuation, "\x7b") :: ss)
      (.value (.mapping (Entries.ofPairs (textEntries fields)))) := by
  intro stop fuel ts rest hts hfuel
  obtain ⟨⟨kind, x, position⟩, us, rfl, ht, hus⟩ := List.map_eq_cons_iff.mp hts
  cases ht
  rw [List.length_cons] at hfuel
  obtain ⟨fuel, rfl⟩ : ∃ n, fuel = n + 1 := ⟨fuel - 1, by omega⟩
  have hmembers := h stop fuel [] us rest hus (by omega)
  rw [List.cons_append, parseValue]
  simp only [next, bind, Except.bind, if_true, hmembers, pure, Except.pure]
  rfl

/-- An array is parsed if its items are, up to the closing bracket. -/
theorem parses_array (h : Parses ss (.items "]" vs)) :
    Parses ((.punctuation, "[") :: ss) (.value (.list vs)) := by
  intro stop fuel ts rest hts hfuel
  obtain ⟨⟨kind, x, position⟩, us, rfl, ht, hus⟩ := List.map_eq_cons_iff.mp hts
  cases ht
  rw [List.length_cons] at hfuel
  obtain ⟨fuel, rfl⟩ : ∃ n, fuel = n + 1 := ⟨fuel - 1, by omega⟩
  have hitems := h stop fuel [] us rest hus (by omega)
  have hne : ¬("[" = "\x7b") := by decide
  rw [List.cons_append, parseValue]
  simp only [next, bind, Except.bind, if_true, if_neg hne, hitems, pure, Except.pure]
  rfl

/-- A call is parsed by its dotted name, if its arguments are parsed as items up to the closing
bracket. -/
theorem parses_call {name : String} {path : List String} (hname : name ∉ Entries.keys constants)
    (h : Parses ss (.items ")" vs)) :
    Parses ((.name, name) :: (dottedShapes path ++ (.punctuation, "(") :: ss))
      (.value (.call (name :: path) vs)) := by
  intro stop fuel ts rest hts hfuel
  obtain ⟨⟨kind, x, position⟩, us, rfl, ht, hus⟩ := List.map_eq_cons_iff.mp hts
  obtain ⟨dotted, ws, rfl, hdotted, hws⟩ := List.map_eq_append_iff.mp hus
  obtain ⟨⟨kind', x', position'⟩, more, rfl, hopen, hmore⟩ := List.map_eq_cons_iff.mp hws
  cases ht
  cases hopen
  simp only [List.length_cons, List.length_append] at hfuel
  obtain ⟨fuel, rfl⟩ : ∃ n, fuel = n + 1 := ⟨fuel - 1, by omega⟩
  have hitems := h stop fuel [] more rest hmore (by omega)
  -- The name goes up to the opening bracket, which is no point.
  have hpath : ∀ done, parsePath stop done
      (dotted ++ ⟨.punctuation, "(", position'⟩ :: (more ++ rest))
        = .ok (done.reverse ++ path, ⟨.punctuation, "(", position'⟩ :: (more ++ rest)) :=
    fun done => parsePath_dotted hdotted (by decide : "(" ≠ ".")
  simp only [Entries.keys, constants, List.map_cons, List.map_nil, List.mem_cons,
    List.not_mem_nil, or_false, not_or] at hname
  rw [List.cons_append, List.append_assoc, List.cons_append, parseValue]
  simp only [next, bind, Except.bind, if_neg hname.1, if_neg hname.2.1, if_neg hname.2.2, hpath,
    if_true, hitems, pure, Except.pure]
  rfl

/-- A closing mark ends the items where none is left. -/
theorem parses_noItem : Parses [(.punctuation, closing)] (.items closing []) := by
  intro stop fuel done ts rest hts hfuel
  obtain ⟨t, us, rfl, ht, hus⟩ := List.map_eq_cons_iff.mp hts
  obtain ⟨fuel, rfl⟩ : ∃ n, fuel = n + 1 := ⟨fuel - 1, by simp at hfuel; omega⟩
  rw [List.map_eq_nil_iff.mp hus, List.singleton_append, parseItems, accept?_eq_some ht,
    List.append_nil]

/-- A last item without a comma is parsed up to the closing mark, one of `closers`. -/
theorem parses_lastItem (hc : closing ∈ closers) (hd : Derives ss (.value v))
    (h : Parses ss (.value v)) :
    Parses (ss ++ [(.punctuation, closing)]) (.items closing [v]) := by
  intro stop fuel done ts rest hts hfuel
  obtain ⟨ts, us, rfl, hss, hus⟩ := List.map_eq_append_iff.mp hts
  obtain ⟨t, ws, rfl, ht, hws⟩ := List.map_eq_cons_iff.mp hus
  rw [List.length_append, List.length_singleton] at hfuel
  obtain ⟨fuel, rfl⟩ : ∃ n, fuel = n + 1 := ⟨fuel - 1, by omega⟩
  have hvalue := h stop fuel ts (t :: rest) hss (by omega)
  -- Behind the last item stands the closing mark and no comma, so the loop ends.
  have hcomma : accept? "," (t :: rest) = none := by
    refine accept?_eq_none fun hx => ?_
    obtain ⟨kind, x, position⟩ := t
    cases ht
    obtain rfl : x = "," := hx
    exact absurd hc (by decide : "," ∉ closers)
  rw [List.map_eq_nil_iff.mp hws, List.append_assoc, List.singleton_append, parseItems,
    accept?_of_derives hc hd hss]
  simp only [hvalue, bind, Except.bind, hcomma, expect_eq_ok ht, pure, Except.pure,
    List.reverse_cons]

/-- An item with a comma is parsed, and then the others up to their closing mark. -/
theorem parses_item (hc : closing ∈ closers) (hd : Derives ss (.value v))
    (h : Parses ss (.value v)) (hs : Parses us (.items closing vs)) :
    Parses (ss ++ (.punctuation, ",") :: us) (.items closing (v :: vs)) := by
  intro stop fuel done ts rest hts hfuel
  obtain ⟨ts, ws, rfl, hss, hws⟩ := List.map_eq_append_iff.mp hts
  obtain ⟨t, more, rfl, ht, hmore⟩ := List.map_eq_cons_iff.mp hws
  rw [List.length_append, List.length_cons] at hfuel
  obtain ⟨fuel, rfl⟩ : ∃ n, fuel = n + 1 := ⟨fuel - 1, by omega⟩
  have hvalue := h stop fuel ts (t :: (more ++ rest)) hss (by omega)
  have hitems := hs stop fuel (v :: done) more rest hmore (by omega)
  rw [List.append_assoc, List.cons_append, parseItems, accept?_of_derives hc hd hss]
  simp only [hvalue, bind, Except.bind, accept?_eq_some ht, hitems, List.reverse_cons,
    List.append_assoc, List.singleton_append]

/-- A closing brace ends the members where none is left. -/
theorem parses_noMember : Parses [(.punctuation, "\x7d")] (.members []) := by
  intro stop fuel done ts rest hts hfuel
  obtain ⟨t, us, rfl, ht, hus⟩ := List.map_eq_cons_iff.mp hts
  obtain ⟨fuel, rfl⟩ : ∃ n, fuel = n + 1 := ⟨fuel - 1, by simp at hfuel; omega⟩
  rw [List.map_eq_nil_iff.mp hus, List.singleton_append, parseMembers, accept?_eq_some ht]
  rfl

/-- A last member without a comma is parsed up to the closing brace, its key by `IsKey`. -/
theorem parses_lastMember {k : Shape} {key : String} (hk : IsKey k key)
    (h : Parses ss (.value v)) :
    Parses (k :: (.punctuation, ":") :: (ss ++ [(.punctuation, "\x7d")]))
      (.members [(key, v)]) := by
  intro stop fuel done ts rest hts hfuel
  obtain ⟨tk, behindKey, rfl, rfl, hbehind⟩ := List.map_eq_cons_iff.mp hts
  obtain ⟨colon, found, rfl, hcolon, hfound⟩ := List.map_eq_cons_iff.mp hbehind
  obtain ⟨ts, us, rfl, hss, hus⟩ := List.map_eq_append_iff.mp hfound
  obtain ⟨t, ws, rfl, ht, hws⟩ := List.map_eq_cons_iff.mp hus
  simp only [List.length_append, List.length_cons, List.length_nil] at hfuel
  obtain ⟨fuel, rfl⟩ : ∃ n, fuel = n + 1 := ⟨fuel - 1, by omega⟩
  have hvalue := h stop fuel ts (t :: rest) hss (by omega)
  -- The brace is no comma, so no other member is read.
  have hcomma : accept? "," (t :: rest) = none := by
    refine accept?_eq_none fun hx => ?_
    obtain ⟨kind, x, position⟩ := t
    cases ht
    exact absurd hx (by decide : "\x7d" ≠ ",")
  rw [List.map_eq_nil_iff.mp hws, List.cons_append, List.cons_append, List.append_assoc,
    List.singleton_append, parseMembers, accept?_of_isKey hk]
  simp only [next, bind, Except.bind, decodeKey_eq_ok hk, expect_eq_ok hcolon, hvalue, hcomma,
    expect_eq_ok ht, pure, Except.pure]
  rfl

/-- A member with a comma is parsed, and then the others up to the closing brace. -/
theorem parses_member {k : Shape} {key : String} (hk : IsKey k key)
    (h : Parses ss (.value v)) (hs : Parses us (.members fields)) :
    Parses (k :: (.punctuation, ":") :: (ss ++ (.punctuation, ",") :: us))
      (.members ((key, v) :: fields)) := by
  intro stop fuel done ts rest hts hfuel
  -- The tokens are taken apart as the shapes are: key, colon, value, comma and the other members.
  obtain ⟨tk, behindKey, rfl, rfl, hbehind⟩ := List.map_eq_cons_iff.mp hts
  obtain ⟨colon, found, rfl, hcolon, hfound⟩ := List.map_eq_cons_iff.mp hbehind
  obtain ⟨ts, ws, rfl, hss, hws⟩ := List.map_eq_append_iff.mp hfound
  obtain ⟨t, more, rfl, ht, hmore⟩ := List.map_eq_cons_iff.mp hws
  simp only [List.length_append, List.length_cons] at hfuel
  obtain ⟨fuel, rfl⟩ : ∃ n, fuel = n + 1 := ⟨fuel - 1, by omega⟩
  have hvalue := h stop fuel ts (t :: (more ++ rest)) hss (by omega)
  have hmembers := hs stop fuel (Entries.put (.str key) v done) more rest hmore (by omega)
  rw [List.cons_append, List.cons_append, List.append_assoc, List.cons_append, parseMembers,
    accept?_of_isKey hk]
  simp only [next, bind, Except.bind, decodeKey_eq_ok hk, expect_eq_ok hcolon, hvalue,
    accept?_eq_some ht, hmembers]
  rfl

/-- The parser reads every phrase of the grammar as what it derives. The induction is on
`Derives`. -/
theorem parses_of_derives {p : Phrase} (h : Derives ss p) : Parses ss p := by
  -- One lemma for each form of a phrase; only single tokens are read here.
  induction h with
  | @string x s h =>
    refine parses_token fun stop fuel t rest ht => ?_
    obtain ⟨kind, x', position⟩ := t
    cases ht
    simp only [parseValue, next, bind, Except.bind, h position, pure, Except.pure]
  | number h =>
    refine parses_token fun stop fuel t rest ht => ?_
    obtain ⟨kind, x', position⟩ := t
    cases ht
    rfl
  | constant h => exact parses_constant h
  | object _ ih => exact parses_object ih
  | array _ ih => exact parses_array ih
  | call hname _ _ ih => exact parses_call hname ih
  | noItem => exact parses_noItem
  | lastItem hc h ih => exact parses_lastItem hc h ih
  | item hc h _ ih ihs => exact parses_item hc h ih ihs
  | noMember => exact parses_noMember
  | lastMember hk _ ih => exact parses_lastMember hk ih
  | member hk _ _ ih ihs => exact parses_member hk ih ihs

end SchemaForge.Source
