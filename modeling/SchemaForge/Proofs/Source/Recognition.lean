import Mathlib
import SchemaForge.Proofs.Outcome
import SchemaForge.Proofs.Source.Grammar
import SchemaForge.Proofs.Source.Scanning

/-!
# The parser reads the grammar and nothing else

`parses_of_derives` says that tokens which are a phrase are read as that phrase. Here is the other
direction: what the parser takes from the front of its tokens is a phrase, and its result is what
that phrase stands for (`derivesResults`). So a value is read exactly where one stands in front, and
no two different ones ever do (`parseValue_eq_ok_iff`); all else is refused, as section 6.4 of the
specification asks.

The parser tells marks of punctuation from other tokens by their texts, and does not look at their
kinds everywhere. In a text this makes no difference, since no string, number or name is written
like a mark (`isWellKinded_of_tokens`).
-/

namespace SchemaForge.Source

variable {c : Char} {rest cs : List Char} {kind : TokenKind} {n stop fuel : ℕ}

/-! ## Kinds and texts -/

/-- Only punctuation has the text of a mark, as is so of all tokens of a text. -/
def IsWellKinded (t : Token) : Prop := t.text ∈ marks.map String.singleton → t.kind = .punctuation

/-- In every number there is a digit, which no mark has. -/
theorem exists_isDigit (h : IsNumber cs) : ∃ d ∈ cs, Text.isDigit d = true := by
  obtain ⟨negative, magnitude, rfl, hmagnitude⟩ := h
  have hrun : ∀ ds : List Char, ds ≠ [] → (∀ d ∈ ds, Text.isDigit d = true) →
      ∃ d ∈ ds, Text.isDigit d = true := by
    intro ds hne hds
    obtain ⟨d, hd⟩ := List.exists_mem_of_ne_nil ds hne
    exact ⟨d, hd, hds d hd⟩
  -- The sign has no digit, so it must be in the magnitude.
  suffices h : ∃ d ∈ magnitude, Text.isDigit d = true by
    obtain ⟨d, hd, hdigit⟩ := h
    exact ⟨d, List.mem_append_right _ hd, hdigit⟩
  cases hmagnitude with
  | whole hd _ =>
    obtain ⟨d, hmem, hdigit⟩ := hrun _ hd.ne_nil hd.isDigit
    exact ⟨d, List.mem_append_left _ hmem, hdigit⟩
  | pointed hd hp hne _ =>
    rcases hne with hne | hne
    · obtain ⟨d, hmem, hdigit⟩ := hrun _ hne hd
      exact ⟨d, List.mem_append_left _ hmem, hdigit⟩
    · obtain ⟨d, hmem, hdigit⟩ := hrun _ hne hp
      exact ⟨d, List.mem_append_right _ (List.mem_cons_of_mem _ (List.mem_append_left _ hmem)),
        hdigit⟩

/-- A mark is no digit, and nothing but a number and a mark begins with one. -/
theorem mark_spec : ∀ c ∈ marks, Text.isDigit c = false ∧ Text.isBlank c = false ∧ c ≠ '/' ∧
    ¬(c = '"' ∨ c = '\'') ∧ c ≠ '-' ∧ isNameStart c = false :=
  -- One mark after the other: of a statement about characters, `decide` may try all there are.
  List.all_iff_forall_prop.mp (by decide)

/-- A token that begins with one of the `marks` and is no longer is punctuation. -/
theorem kind_of_lexeme? (hm : c ∈ marks) (hn : rest.take n = [])
    (h : lexeme? c rest = some (.token kind, n)) : kind = .punctuation := by
  obtain ⟨hdigit, hblank, hslash, hquote, hminus, hname⟩ := mark_spec c hm
  -- A number has a digit, and a mark of one character is none.
  have hnumber : kind ≠ .number := by
    rintro rfl
    obtain ⟨d, hd, hdigit'⟩ := exists_isDigit (isNumber_of_lexeme? h)
    rw [hn, List.mem_singleton] at hd
    rw [hd, hdigit] at hdigit'
    cases hdigit'
  unfold lexeme? at h
  rw [if_neg (by rw [hblank]; decide), if_neg hslash, if_neg hquote, if_neg hminus] at h
  split at h
  · cases h
    exact absurd rfl hnumber
  · rw [if_neg (by rw [hname]; decide)] at h
    split at h
    · cases h
      rfl
    · cases h

/-- What holds of every token that can be cut off the front of a text holds of all tokens that a
scan finds. -/
theorem forall_scanFrom {P : Token → Prop} {position : ℕ} {done : List Token}
    (h : ∀ position c rest kind n, lexeme? c rest = some (.token kind, n) →
      P ⟨kind, String.ofList (c :: rest.take n), position⟩)
    (hdone : ∀ t ∈ done, P t) : ∀ t ∈ (scanFrom position done cs).tokens, P t := by
  induction position, done, cs using scanFrom.induct with
  | case1 position done =>
    unfold scanFrom
    exact fun t ht => hdone t (List.mem_reverse.mp ht)
  | case2 position done c rest hnone =>
    unfold scanFrom
    rw [hnone]
    exact fun t ht => hdone t (List.mem_reverse.mp ht)
  | case3 position done c rest kind n hlexeme ih =>
    unfold scanFrom
    rw [hlexeme]
    refine ih fun t ht => ?_
    rcases List.mem_cons.mp ht with rfl | ht
    · exact h position c rest kind n hlexeme
    · exact hdone t ht
  -- A gap gives no token.
  | case4 position done c rest lexeme n hlexeme hlexeme' ih =>
    unfold scanFrom
    rw [hlexeme']
    cases lexeme with
    | token kind => exact absurd rfl (hlexeme kind)
    | blank => exact ih hdone
    | comment => exact ih hdone

/-- In a text, no token but a mark is written like one, so that the parser may tell marks by their
texts. -/
theorem isWellKinded_of_tokens {text : List Char} {ts : List Token} (h : tokens text = .ok ts) :
    ∀ t ∈ ts, IsWellKinded t := by
  -- The text of a token that is a mark is one character, and the scanner makes punctuation of it.
  have hscan : ∀ t ∈ (scan text).tokens, IsWellKinded t := by
    refine forall_scanFrom (fun position c rest kind n hlexeme hmark => ?_)
      fun t ht => absurd ht List.not_mem_nil
    obtain ⟨m, hm, heq⟩ := List.mem_map.mp hmark
    have hcs : [m] = c :: rest.take n := by
      rw [← String.toList_singleton, heq, String.toList_ofList]
    obtain ⟨rfl, hn⟩ := List.cons.inj hcs
    exact kind_of_lexeme? hm hn.symm hlexeme
  unfold tokens at h
  dsimp only at h
  split at h
  · cases h
    exact hscan
  · cases h

/-- The marks that close something are among the marks of punctuation. -/
theorem closers_subset_marks : closers ⊆ marks.map String.singleton := by
  decide

/-! ## Single tokens -/

variable {t : Token} {ts front more : List Token} {text : String}

/-- A well-kinded token with the text of a mark is that mark, its kind included. -/
theorem shape_of_text (ht : IsWellKinded t) (hmark : text ∈ marks.map String.singleton)
    (h : t.text = text) : t.shape = (.punctuation, text) := by
  subst h
  rw [Token.shape, ht hmark]

/-- What is not punctuation does not close anything, for closing marks are punctuation. -/
theorem IsWellKinded.not_closes (ht : IsWellKinded t) (hkind : t.kind = kind)
    (hne : kind ≠ .punctuation := by decide) : t.text ∉ closers :=
  fun hclose => hne (hkind.symm.trans (ht (closers_subset_marks hclose)))

/-- A mark that `accept?` passes over is the next token. -/
theorem exists_mark_of_accept? (hts : ∀ t ∈ ts, IsWellKinded t)
    (hmark : text ∈ marks.map String.singleton) (h : accept? text ts = some more) :
    ∃ t, ts = t :: more ∧ t.shape = (.punctuation, text) := by
  cases ts with
  | nil => cases h
  | cons t rest =>
    rw [accept?] at h
    split at h
    · rename_i htext
      cases h
      exact ⟨t, rfl, shape_of_text (hts t List.mem_cons_self) hmark htext.1⟩
    · cases h

/-- A mark that `expect` passes over is the next token. -/
theorem exists_mark_of_expect (hts : ∀ t ∈ ts, IsWellKinded t)
    (hmark : text ∈ marks.map String.singleton) (h : expect stop text ts = .ok ((), more)) :
    ∃ t, ts = t :: more ∧ t.shape = (.punctuation, text) := by
  cases ts with
  | nil => cases h
  | cons t rest =>
    have hstep : expect stop text (t :: rest) = if t.text = text then .ok ((), rest)
        else .error ⟨.expected text t.text, some t.position⟩ := rfl
    rw [hstep] at h
    split at h
    · rename_i htext
      cases h
      exact ⟨t, rfl, shape_of_text (hts t List.mem_cons_self) hmark htext⟩
    · cases h

/-- What `decodeString` makes of a string token does not depend on the place of the token. -/
theorem decodeString_moved {s : String} (h : decodeString t = .ok s) (position : ℕ) :
    decodeString ⟨t.kind, t.text, position⟩ = .ok s := by
  unfold decodeString at h ⊢
  dsimp only at h ⊢
  split at h
  · cases h
  · split at h
    · cases h
    · split at h
      · rename_i r hr hempty
        cases h
        rw [if_pos hempty]
      · cases h

/-- A token of which `decodeKey` reads a key stands for this key in the grammar. -/
theorem isKey_of_decodeKey {key : String} (ht : IsWellKinded t) (h : decodeKey t = .ok key) :
    IsKey t.shape key := by
  unfold decodeKey at h
  split at h
  · rename_i hkind
    rw [Token.shape, hkind]
    exact .string fun position => hkind ▸ decodeString_moved h position
  · rename_i hkind
    cases h
    rw [Token.shape, hkind]
    exact .name (ht.not_closes hkind)
  · cases h

/-- What `parsePath` reads are the names of a dotted name, each behind a point. -/
theorem dotted_of_parsePath {path names : List String} (hts : ∀ t ∈ ts, IsWellKinded t)
    (h : parsePath stop path ts = .ok (names, more)) :
    ∃ front parts, ts = front ++ more ∧ names = path.reverse ++ parts ∧
      front.map Token.shape = dottedShapes parts := by
  -- Each round takes two tokens, a point and a name.
  induction hn : ts.length using Nat.strongRecOn generalizing ts path with
  | ind n ih =>
    unfold parsePath at h
    split at h
    · cases h
      exact ⟨[], [], rfl, (List.append_nil _).symm, rfl⟩
    · cases h
    · rename_i part rest haccept
      obtain ⟨point, rfl, hpoint⟩ := exists_mark_of_accept? hts (by decide) haccept
      split at h
      · rename_i hkind
        have hrest : ∀ t ∈ rest, IsWellKinded t := fun t ht =>
          hts t (List.mem_cons_of_mem _ (List.mem_cons_of_mem _ ht))
        rw [List.length_cons, List.length_cons] at hn
        obtain ⟨front, parts, rfl, rfl, hshapes⟩ := ih rest.length (by omega) hrest h rfl
        refine ⟨point :: part :: front, part.text :: parts, rfl, ?_, ?_⟩
        · rw [List.reverse_cons, List.append_assoc, List.singleton_append]
        · have hpart : part.shape = (.name, part.text) := by rw [Token.shape, hkind]
          rw [List.map_cons, List.map_cons, hpoint, hpart, hshapes]
          rfl
      · cases h

/-! ## Phrases -/

/-- The tokens from `ts` up to `more` are a phrase. -/
def Takes (ts more : List Token) (p : Phrase) : Prop :=
  ∃ front, ts = front ++ more ∧ Derives (front.map Token.shape) p

/-- What the parser takes with some fuel is a phrase, and its result is what the phrase stands
for. -/
structure DerivesResults (stop fuel : ℕ) : Prop where
  /-- A value is taken. -/
  value : ∀ {ts more v}, (∀ t ∈ ts, IsWellKinded t) → parseValue stop fuel ts = .ok (v, more) →
    Takes ts more (.value v)
  /-- Items are taken up to their closing mark. -/
  items : ∀ {closing done ts more vs}, closing ∈ closers → (∀ t ∈ ts, IsWellKinded t) →
    parseItems stop closing fuel done ts = .ok (vs, more) →
      ∃ taken, vs = done.reverse ++ taken ∧ Takes ts more (.items closing taken)
  /-- Members are taken up to the closing brace. -/
  members : ∀ {done ts more entries}, (∀ t ∈ ts, IsWellKinded t) →
    parseMembers stop fuel done ts = .ok (entries, more) →
      ∃ fields, entries = Entries.putAll done (textEntries fields) ∧
        Takes ts more (.members fields)

/-- Without fuel the parser takes nothing, so that there is nothing to derive. -/
theorem derivesResults_zero (stop : ℕ) : DerivesResults stop 0 := by
  refine ⟨fun _ h => ?_, fun _ _ h => ?_, fun _ h => ?_⟩
  · rw [parseValue] at h
    cases h
  · rw [parseItems] at h
    cases h
  · rw [parseMembers] at h
    cases h

/-- A single token is taken where its shape derives a value. -/
theorem Takes.token {v : Value} (h : Derives [t.shape] (.value v)) :
    Takes (t :: more) more (.value v) :=
  ⟨[t], rfl, h⟩

/-- Behind a token of well-kinded ones stand well-kinded ones. -/
theorem forall_of_cons (hts : ∀ t' ∈ t :: ts, IsWellKinded t') : ∀ t' ∈ ts, IsWellKinded t' :=
  fun t' ht => hts t' (List.mem_cons_of_mem t ht)

/-- What is left behind a phrase that `Takes` tokens is well-kinded if all of them are. -/
theorem Takes.forall_more {p : Phrase} (h : Takes ts more p) (hts : ∀ t ∈ ts, IsWellKinded t) :
    ∀ t ∈ more, IsWellKinded t := by
  obtain ⟨front, rfl, -⟩ := h
  exact fun t ht => hts t (List.mem_append_right front ht)

/-- A name among the `constants` is taken as its value. -/
theorem Takes.constant {name : String} {v : Value} (hkind : t.kind = .name) (htext : t.text = name)
    (h : (name, v) ∈ constants) : Takes (t :: more) more (.value v) := by
  refine .token ?_
  rw [Token.shape, hkind, htext]
  exact .constant h

/-- A name that is no constant begins a call, which is taken if its arguments are. -/
theorem DerivesResults.takes_call (ih : DerivesResults stop fuel) {path : List String}
    {p : Token} {after rest more : List Token} {arguments : List Value}
    (hts : ∀ t' ∈ t :: rest, IsWellKinded t') (hkind : t.kind = .name)
    (hname : t.text ∉ Entries.keys constants)
    (hpath : parsePath stop [t.text] rest = .ok (path, p :: after)) (hopen : p.text = "(")
    (hitems : parseItems stop ")" fuel [] after = .ok (arguments, more)) :
    Takes (t :: rest) more (.value (.call path arguments)) := by
  have hrest := forall_of_cons hts
  obtain ⟨dotted, parts, rfl, rfl, hdotted⟩ := dotted_of_parsePath hrest hpath
  have hbehind : ∀ t' ∈ p :: after, IsWellKinded t' := fun t' ht' =>
    hrest t' (List.mem_append_right dotted ht')
  obtain ⟨taken, rfl, front, rfl, hd⟩ := ih.items (by decide) (forall_of_cons hbehind) hitems
  have hshape : t.shape = (.name, t.text) := by rw [Token.shape, hkind]
  refine ⟨t :: (dotted ++ p :: front), by simp, ?_⟩
  rw [List.map_cons, List.map_append, List.map_cons, hshape, hdotted,
    shape_of_text (hbehind p List.mem_cons_self) (by decide) hopen]
  exact .call hname ((hts t List.mem_cons_self).not_closes hkind) hd

/-- What `parseValue` takes with one more step of fuel is a value, if its parts are taken. The cases
are those of the first token. -/
theorem DerivesResults.parseValue (ih : DerivesResults stop fuel) {v : Value}
    (hts : ∀ t ∈ ts, IsWellKinded t) (h : parseValue stop (fuel + 1) ts = .ok (v, more)) :
    Takes ts more (.value v) := by
  rw [Source.parseValue] at h
  cases ts with
  | nil => cases h
  | cons t rest =>
    -- The kind of the first token decides which form of a value there can be.
    have ht := hts t List.mem_cons_self
    have hrest := forall_of_cons hts
    obtain ⟨r, hnext, h⟩ := Outcome.bind_eq_ok.mp h
    cases hnext
    dsimp only at h
    split at h
    · rename_i hkind
      obtain ⟨s, hs, h⟩ := Outcome.bind_eq_ok.mp h
      cases h
      refine .token ?_
      rw [Token.shape, hkind]
      exact .string fun position => hkind ▸ decodeString_moved hs position
    · rename_i hkind
      cases h
      refine .token ?_
      rw [Token.shape, hkind]
      exact .number (ht.not_closes hkind)
    · rename_i hkind
      split at h
      · rename_i htext
        obtain ⟨⟨entries, rest'⟩, hmembers, h⟩ := Outcome.bind_eq_ok.mp h
        cases h
        obtain ⟨fields, rfl, front, rfl, hd⟩ := ih.members hrest hmembers
        refine ⟨t :: front, rfl, ?_⟩
        rw [List.map_cons, Token.shape, hkind, htext]
        exact .object hd
      · split at h
        · rename_i htext
          obtain ⟨⟨items, rest'⟩, hitems, h⟩ := Outcome.bind_eq_ok.mp h
          cases h
          obtain ⟨taken, rfl, front, rfl, hd⟩ := ih.items (by decide) hrest hitems
          refine ⟨t :: front, rfl, ?_⟩
          rw [List.map_cons, Token.shape, hkind, htext]
          exact .array hd
        · cases h
    · rename_i hkind
      split at h
      · rename_i htext
        cases h
        exact .constant hkind htext (by simp [constants])
      split at h
      · rename_i htext
        cases h
        exact .constant hkind htext (by simp [constants])
      split at h
      · rename_i htext
        cases h
        exact .constant hkind htext (by simp [constants])
      rename_i htrue hfalse hnull
      -- A name that is no constant is the beginning of a call.
      have hname : t.text ∉ Entries.keys constants := by
        simp [Entries.keys, constants, htrue, hfalse, hnull]
      obtain ⟨⟨path, behind⟩, hpath, h⟩ := Outcome.bind_eq_ok.mp h
      cases behind with
      | nil => cases h
      | cons p after =>
        dsimp only at h
        split at h
        · rename_i hopen
          obtain ⟨⟨items, rest'⟩, hitems, h⟩ := Outcome.bind_eq_ok.mp h
          cases h
          exact ih.takes_call hts hkind hname hpath hopen hitems
        · cases h

/-- What `parseItems` takes with one more step of fuel are items, if their parts are taken. -/
theorem DerivesResults.parseItems (ih : DerivesResults stop fuel) {closing : String}
    {done vs : List Value} (hc : closing ∈ closers) (hts : ∀ t ∈ ts, IsWellKinded t)
    (h : parseItems stop closing (fuel + 1) done ts = .ok (vs, more)) :
    ∃ taken, vs = done.reverse ++ taken ∧ Takes ts more (.items closing taken) := by
  rw [Source.parseItems] at h
  split at h
  · rename_i rest haccept
    cases h
    obtain ⟨t, rfl, ht⟩ := exists_mark_of_accept? hts (closers_subset_marks hc) haccept
    exact ⟨[], (List.append_nil _).symm, [t], rfl, by rw [List.map_singleton, ht]; exact .noItem⟩
  · obtain ⟨⟨v, rest⟩, hvalue, hbehind⟩ := Outcome.bind_eq_ok.mp h
    -- Behind an item is a comma, and then the other items, or the closing mark.
    have htakes := ih.value hts hvalue
    have hrest := htakes.forall_more hts
    obtain ⟨front, rfl, hd⟩ := htakes
    dsimp only at hbehind
    split at hbehind
    · rename_i rest' haccept
      obtain ⟨comma, rfl, hcomma⟩ := exists_mark_of_accept? hrest (by decide) haccept
      obtain ⟨taken, rfl, front', rfl, hd'⟩ := ih.items hc (forall_of_cons hrest) hbehind
      refine ⟨v :: taken, by rw [List.reverse_cons, List.append_assoc, List.singleton_append],
        front ++ comma :: front', by simp, ?_⟩
      rw [List.map_append, List.map_cons, hcomma]
      exact .item hc hd hd'
    · obtain ⟨⟨⟨⟩, rest'⟩, hexpect, hresult⟩ := Outcome.bind_eq_ok.mp hbehind
      cases hresult
      obtain ⟨mark, rfl, hmark⟩ := exists_mark_of_expect hrest (closers_subset_marks hc) hexpect
      refine ⟨[v], List.reverse_cons, front ++ [mark], by simp, ?_⟩
      rw [List.map_append, List.map_singleton, hmark]
      exact .lastItem hc hd

/-- What `parseMembers` takes with one more step of fuel are members, if their parts are taken. -/
theorem DerivesResults.parseMembers (ih : DerivesResults stop fuel)
    {done entries : List (Scalar × Value)} (hts : ∀ t ∈ ts, IsWellKinded t)
    (h : parseMembers stop (fuel + 1) done ts = .ok (entries, more)) :
    ∃ fields, entries = Entries.putAll done (textEntries fields) ∧
      Takes ts more (.members fields) := by
  rw [Source.parseMembers] at h
  split at h
  · rename_i rest haccept
    cases h
    obtain ⟨t, rfl, ht⟩ := exists_mark_of_accept? hts (by decide) haccept
    exact ⟨[], rfl, [t], rfl, by rw [List.map_singleton, ht]; exact .noMember⟩
  · cases ts with
    | nil => cases h
    | cons t behind =>
      have hbehind := forall_of_cons hts
      obtain ⟨r, hnext, h⟩ := Outcome.bind_eq_ok.mp h
      cases hnext
      obtain ⟨key, hkey, hbehindKey⟩ := Outcome.bind_eq_ok.mp h
      have hk := isKey_of_decodeKey (hts t List.mem_cons_self) hkey
      obtain ⟨⟨⟨⟩, values⟩, hexpect, hbehindColon⟩ := Outcome.bind_eq_ok.mp hbehindKey
      obtain ⟨⟨v, rest⟩, hvalue, hbehindValue⟩ := Outcome.bind_eq_ok.mp hbehindColon
      obtain ⟨colon, rfl, hcolon⟩ := exists_mark_of_expect hbehind (by decide) hexpect
      -- Behind a member is a comma, and then the other members, or the closing brace.
      have htakes := ih.value (forall_of_cons hbehind) hvalue
      have hrest := htakes.forall_more (forall_of_cons hbehind)
      obtain ⟨front, rfl, hd⟩ := htakes
      dsimp only at hbehindValue
      split at hbehindValue
      · rename_i rest' haccept
        obtain ⟨comma, rfl, hcomma⟩ := exists_mark_of_accept? hrest (by decide) haccept
        obtain ⟨fields, rfl, front', rfl, hd'⟩ :=
          ih.members (forall_of_cons hrest) hbehindValue
        refine ⟨(key, v) :: fields, rfl, t :: colon :: (front ++ comma :: front'), by simp, ?_⟩
        rw [List.map_cons, List.map_cons, List.map_append, List.map_cons, hcolon, hcomma]
        exact .member hk hd hd'
      · obtain ⟨⟨⟨⟩, rest'⟩, hclose, hresult⟩ := Outcome.bind_eq_ok.mp hbehindValue
        cases hresult
        obtain ⟨mark, rfl, hmark⟩ := exists_mark_of_expect hrest (by decide) hclose
        refine ⟨[(key, v)], rfl, t :: colon :: (front ++ [mark]), by simp, ?_⟩
        rw [List.map_cons, List.map_cons, List.map_append, List.map_singleton, hcolon, hmark]
        exact .lastMember hk hd

/-- Whatever the fuel, what the parser takes is a phrase. The induction is on the fuel. -/
theorem derivesResults (stop fuel : ℕ) : DerivesResults stop fuel := by
  induction fuel with
  | zero => exact derivesResults_zero stop
  | succ fuel ih => exact ⟨ih.parseValue, ih.parseItems, ih.parseMembers⟩

/-- The parser `parseValue` reads a value off the front of well-kinded tokens exactly if a prefix of
them derives one, with fuel for all tokens or more. What is read is what the prefix stands for, and
no other prefix is a value. -/
theorem parseValue_eq_ok_iff (hts : ∀ t ∈ ts, IsWellKinded t) (stop extra : ℕ) :
    (∀ v more, parseValue stop (fuelFor ts + extra) ts = .ok (v, more) ↔
      ∃ front, ts = front ++ more ∧ Derives (front.map Token.shape) (.value v)) ∧
    (∀ front front' v v', front <+: ts → front' <+: ts →
      Derives (front.map Token.shape) (.value v) → Derives (front'.map Token.shape) (.value v') →
        front = front' ∧ v = v') ∧
    ∀ fields : List (String × Value),
      Entries.keys (Entries.ofPairs (textEntries fields))
        = (Entries.keys fields).eraseDups.map .str ∧
      ∀ key, Entries.get? (.str key) (Entries.ofPairs (textEntries fields))
        = Entries.get? key fields.reverse := by
  -- A value in front is read, so two of them are one result of the same run.
  have hreads : ∀ {front more v}, ts = front ++ more →
      Derives (front.map Token.shape) (.value v) →
        parseValue stop (fuelFor ts + extra) ts = .ok (v, more) := by
    rintro front more v rfl hd
    refine parses_of_derives hd stop _ front more rfl ?_
    rw [List.length_map, fuelFor, List.length_append]
    omega
  refine ⟨fun v more => ⟨fun h => (derivesResults stop _).value hts h, ?_⟩, ?_, fun fields => ?_⟩
  · rintro ⟨front, hfront, hd⟩
    exact hreads hfront hd
  · rintro front front' v v' ⟨more, hmore⟩ ⟨more', hmore'⟩ hd hd'
    have heq := (hreads hmore.symm hd).symm.trans (hreads hmore'.symm hd')
    obtain ⟨rfl, rfl⟩ := Prod.mk.inj (Except.ok.inj heq)
    exact ⟨List.append_cancel_right (hmore.trans hmore'.symm), rfl⟩
  · rw [textEntries.ofPairs_eq]
    refine ⟨?_, fun key => ?_⟩
    · rw [← Entries.keys_ofPairs]
      simp [Entries.keys, textEntries, Function.comp_def]
    · rw [textEntries.get?, Entries.get?_ofPairs]

/-- An object that names a key twice, with commas behind its last items, and a mark behind it. -/
def repeatingTokens : List Token :=
  [⟨.punctuation, "\x7b", 0⟩, ⟨.name, "a", 1⟩, ⟨.punctuation, ":", 2⟩, ⟨.number, "1", 3⟩,
    ⟨.punctuation, ",", 4⟩, ⟨.string, "'b'", 5⟩, ⟨.punctuation, ":", 8⟩, ⟨.punctuation, "[", 9⟩,
    ⟨.name, "true", 10⟩, ⟨.punctuation, ",", 14⟩, ⟨.punctuation, "]", 15⟩, ⟨.punctuation, ",", 16⟩,
    ⟨.string, "\"a\"", 17⟩, ⟨.punctuation, ":", 20⟩, ⟨.name, "S", 21⟩, ⟨.punctuation, ".", 22⟩,
    ⟨.name, "Id", 23⟩, ⟨.punctuation, "(", 25⟩, ⟨.punctuation, ")", 26⟩, ⟨.punctuation, ",", 27⟩,
    ⟨.punctuation, "\x7d", 28⟩, ⟨.punctuation, ";", 29⟩]

/-- The object is read up to the mark behind it, and is a value of the grammar. -/
theorem parseValue_eq_ok_iff_repeatingTokens :
    (∀ t ∈ repeatingTokens, IsWellKinded t) ∧
      parseValue 30 (fuelFor repeatingTokens + 0) repeatingTokens
        = .ok (.mapping [(.str "a", .call ["S", "Id"] []), (.str "b", .list [.bool true])],
          [⟨.punctuation, ";", 29⟩]) ∧
      ∃ front, repeatingTokens = front ++ [⟨.punctuation, ";", 29⟩] ∧
        Derives (front.map Token.shape) (.value
          (.mapping [(.str "a", .call ["S", "Id"] []), (.str "b", .list [.bool true])])) := by
  have hkinds : ∀ t ∈ repeatingTokens, IsWellKinded t := by
    unfold IsWellKinded
    decide
  have hparsed : parseValue 30 (fuelFor repeatingTokens + 0) repeatingTokens
      = .ok (.mapping [(.str "a", .call ["S", "Id"] []), (.str "b", .list [.bool true])],
        [⟨.punctuation, ";", 29⟩]) := by
    cbv
  exact ⟨hkinds, hparsed, ((parseValue_eq_ok_iff hkinds 30 0).1 _ _).mp hparsed⟩

end SchemaForge.Source
