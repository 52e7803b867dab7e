import SchemaForge.Proofs.Outcome
import SchemaForge.Proofs.Source.Making
import SchemaForge.Proofs.Source.Scanning
import SchemaForge.Proofs.Source.Unchecked
import SchemaForge.Proofs.Value.Entries
import SchemaForge.Proofs.Value.Knot

/-!
# Loading always comes to an end, with a schema or an error of its own

Every step of the parser leaves a suffix of the tokens, and every turn of its loops a shorter one
(`Consumes`), so that fuel for two steps a token is never used up. Every number token is in the
shape of a number, and every part that is asked for was seen to be there. So the loader that may
break down does not: with fuel enough it does what `load` does (`load_total`).
-/

namespace SchemaForge.Source

variable {α β : Type} {stop m n : ℕ} {ts rest : List Token} {t : Token}

/-! ## Steps that announce their errors -/

/-- A result stays one when errors are announced. -/
theorem announced_ok (a : α) : announced (.ok a) = .ok a := rfl

/-- A sequence whose first step announces its errors does so itself, if all that follows does. -/
theorem announced_bind {x : Except Error α} {f : α → Except Error β} {g : α → Outcome Error β}
    (h : ∀ a, x = .ok a → g a = announced (f a)) : announced x >>= g = announced (x >>= f) := by
  cases x with
  | error e => rfl
  | ok a => exact h a rfl

/-! ## Steps that take tokens -/

/-- Tokens as they may be found in a text of length `stop`. -/
def AreScanned (stop : ℕ) (ts : List Token) : Prop := ∀ t ∈ ts, IsScanned stop t

/-- Every suffix of tokens that `AreScanned` consists of such tokens. -/
theorem AreScanned.of_suffix (h : AreScanned stop ts) (hs : rest <:+ ts) : AreScanned stop rest :=
  fun t ht => h t (hs.mem ht)

/-- A step leaves a suffix of the tokens and takes `n` of them at least, or gives an error whose
place is in the text. -/
def Consumes (stop n : ℕ) (ts : List Token) : Except Error (α × List Token) → Prop
  | .ok r => r.2 <:+ ts ∧ r.2.length + n ≤ ts.length
  | .error e => e.IsWithin stop

/-- What takes the first token and leaves the rest `Consumes` one token. -/
theorem Consumes.of_cons {a : α} : Consumes stop 1 (t :: rest) (.ok (a, rest)) :=
  ⟨List.suffix_cons t rest, le_rfl⟩

/-- A step takes as many tokens, and more, when others stand in front of those it takes. -/
theorem Consumes.of_suffix {r : Except Error (α × List Token)} (h : Consumes stop n rest r)
    (hs : rest <:+ ts) (hlen : rest.length + m ≤ ts.length) : Consumes stop (m + n) ts r := by
  cases r with
  | ok r =>
    obtain ⟨hsuffix, hshort⟩ := h
    exact ⟨hsuffix.trans hs, by omega⟩
  | error e => exact h

/-- A step that `Consumes` many tokens takes fewer ones at least. -/
theorem Consumes.mono {r : Except Error (α × List Token)} (h : Consumes stop n ts r) (hmn : m ≤ n) :
    Consumes stop m ts r := by
  cases r with
  | ok r => exact ⟨h.1, by have := h.2; omega⟩
  | error e => exact h

/-- Where a step takes some tokens behind a first one, the step from the first one on takes at least
one. -/
theorem Consumes.behind {r : Except Error (α × List Token)} (h : Consumes stop n rest r)
    (t : Token) : Consumes stop 1 (t :: rest) r :=
  (h.of_suffix (m := 1) (List.suffix_cons t rest) le_rfl).mono (Nat.le_add_right 1 n)

/-- Two steps take as many tokens as each of them takes, which `>>=` adds up. -/
theorem Consumes.bind {x : Except Error (α × List Token)}
    {f : α × List Token → Except Error (β × List Token)} (hx : Consumes stop m ts x)
    (hf : ∀ a rest, rest <:+ ts → Consumes stop n rest (f (a, rest))) :
    Consumes stop (m + n) ts (x >>= f) := by
  cases x with
  | error e => exact hx
  | ok r => exact (hf r.1 r.2 hx.1).of_suffix hx.1 hx.2

/-- A step that takes no tokens may come first, if its errors are in the text. -/
theorem Consumes.of_bind {x : Except Error α} {f : α → Except Error (β × List Token)}
    (hx : ∀ e, x = .error e → e.IsWithin stop) (hf : ∀ a, Consumes stop n ts (f a)) :
    Consumes stop n ts (x >>= f) := by
  cases x with
  | error e => exact hx e rfl
  | ok a => exact hf a

/-- An error at the place of a token that `IsScanned` has its place in the text. -/
theorem isWithin_position (h : IsScanned stop t) (cause : Cause) :
    (⟨cause, some t.position⟩ : Error).IsWithin stop := by
  rintro p ⟨⟩
  exact h.position.le

/-- An error at the end of the text is within the text. -/
theorem isWithin_stop (cause : Cause) : (⟨cause, some stop⟩ : Error).IsWithin stop := by
  rintro p ⟨⟩
  exact le_rfl

/-- The next token is the first one. -/
theorem next_cons (stop : ℕ) (t : Token) (rest : List Token) :
    next stop (t :: rest) = .ok (t, rest) := rfl

/-- The reader `next` takes one token, or fails at the end of the text. -/
theorem consumes_next : Consumes stop 1 ts (next stop ts) := by
  cases ts with
  | nil => exact isWithin_stop _
  | cons t rest => exact .of_cons

/-- The reader `expect` takes one token, or fails at the place of another one. -/
theorem consumes_expect (h : AreScanned stop ts) (text : String) :
    Consumes stop 1 ts (expect stop text ts) := by
  cases ts with
  | nil => exact isWithin_stop _
  | cons t rest =>
    show Consumes stop 1 (t :: rest) (if t.text = text then _ else _)
    split
    · exact .of_cons
    · exact isWithin_position (h t List.mem_cons_self) _

/-- The reader `accept?` takes one token if it takes any. -/
theorem exists_cons_of_accept? {text : String} (h : accept? text ts = some rest) :
    ∃ t, ts = t :: rest := by
  cases ts with
  | nil => cases h
  | cons t more =>
    rw [accept?] at h
    split at h
    · cases h
      exact ⟨t, rfl⟩
    · cases h

/-- Whether a token that may be there is taken or not, a suffix is left. -/
theorem suffix_accept? (text : String) (ts : List Token) : (accept? text ts).getD ts <:+ ts := by
  cases h : accept? text ts with
  | none => exact List.suffix_rfl
  | some rest =>
    obtain ⟨t, rfl⟩ := exists_cons_of_accept? h
    exact List.suffix_cons t rest

/-- The parser `parsePath` leaves a suffix of the tokens. -/
theorem consumes_parsePath (h : AreScanned stop ts) (path : List String) :
    Consumes stop 0 ts (parsePath stop path ts) := by
  -- Each round takes two tokens, a point and a name.
  induction hn : ts.length using Nat.strongRecOn generalizing ts path with
  | ind n ih =>
    unfold parsePath
    split
    · exact ⟨List.suffix_rfl, le_rfl⟩
    · exact isWithin_stop _
    · rename_i part rest haccept
      obtain ⟨t, rfl⟩ := exists_cons_of_accept? haccept
      rw [List.length_cons, List.length_cons] at hn
      have hsuffix : rest <:+ t :: part :: rest :=
        (List.suffix_cons part rest).trans (List.suffix_cons t _)
      split
      · have hpath := ih rest.length (by omega) (h.of_suffix hsuffix) (part.text :: path) rfl
        exact hpath.of_suffix hsuffix (by rw [List.length_cons, List.length_cons]; omega)
      · exact isWithin_position (h part (by simp)) _

/-- An error of `decodeString` is at the place of the token. -/
theorem isWithin_decodeString (h : IsScanned stop t) {e : Error}
    (he : decodeString t = .error e) : e.IsWithin stop := by
  have hposition : ∀ cause, (⟨cause, some t.position⟩ : Error).IsWithin stop :=
    isWithin_position h
  unfold decodeString at he
  dsimp only at he
  split at he
  · cases he
    exact hposition _
  · split at he
    · cases he
      exact hposition _
    · split at he
      · cases he
      · cases he
        exact hposition _

/-- A key is decoded by `decodeKey`, or the place of the error is within the text. -/
theorem isWithin_decodeKey (h : IsScanned stop t) {e : Error} (he : decodeKey t = .error e) :
    e.IsWithin stop := by
  unfold decodeKey at he
  split at he
  · exact isWithin_decodeString h he
  · cases he
  · cases he
    exact isWithin_position h _

/-- What the parser of expressions takes, with this fuel: one token at least, for a value, for items
and for members. -/
structure ConsumesExpressions (stop fuel : ℕ) : Prop where
  /-- A value is taken. -/
  value : ∀ ts, AreScanned stop ts → Consumes stop 1 ts (parseValue stop fuel ts)
  /-- The items of a list are taken, with the closing mark. -/
  items : ∀ closing done ts, AreScanned stop ts →
    Consumes stop 1 ts (parseItems stop closing fuel done ts)
  /-- The members of an object are taken, with the closing brace. -/
  members : ∀ done ts, AreScanned stop ts → Consumes stop 1 ts (parseMembers stop fuel done ts)

/-- Without fuel nothing is taken, and the error is at the end of the text. -/
theorem consumesExpressions_zero (stop : ℕ) : ConsumesExpressions stop 0 := by
  refine ⟨fun ts _ => ?_, fun closing done ts _ => ?_, fun done ts _ => ?_⟩
  · rw [parseValue]
    exact isWithin_stop _
  · rw [parseItems]
    exact isWithin_stop _
  · rw [parseMembers]
    exact isWithin_stop _

variable {fuel : ℕ}

/-- A step whose result is changed `Consumes` what it took. -/
theorem Consumes.map {x : Except Error (α × List Token)} {f : α → β} (h : Consumes stop n ts x) :
    Consumes stop n ts (x >>= fun r => pure (f r.1, r.2)) := by
  cases x with
  | error e => exact h
  | ok r => exact h

/-- The parser `parseValue` takes a token at least with one more step of fuel, if its parts do. The
cases are those of the first token. -/
theorem ConsumesExpressions.parseValue (h : ConsumesExpressions stop fuel)
    (hts : AreScanned stop ts) : Consumes stop 1 ts (parseValue stop (fuel + 1) ts) := by
  rw [Source.parseValue]
  cases ts with
  | nil => exact isWithin_stop _
  | cons t rest =>
    have ht := hts t List.mem_cons_self
    have hrest := hts.of_suffix (List.suffix_cons t rest)
    -- Where no value begins, the error is placed at the token that was taken.
    have herror : ∀ cause, Consumes (α := Value) stop 1 (t :: rest)
        (.error ⟨cause, some t.position⟩) := fun cause => isWithin_position ht cause
    rw [next_cons, Outcome.ok_bind]
    dsimp only
    split
    · exact .of_bind (fun e he => isWithin_decodeString ht he) fun s => .of_cons
    · exact .of_cons
    · split
      · exact ((h.members [] rest hrest).map).behind t
      · split
        · exact ((h.items "]" [] rest hrest).map).behind t
        · exact herror _
    · split
      · exact .of_cons
      split
      · exact .of_cons
      split
      · exact .of_cons
      -- Any other name begins a call: behind its path stand its arguments.
      · refine ((consumes_parsePath hrest _).bind (n := 0) fun path after hafter => ?_).behind t
        cases after with
        | nil => exact isWithin_position ht _
        | cons p after =>
          show Consumes stop 0 (p :: after) (if p.text = "(" then _ else _)
          split
          · have hitems := h.items ")" [] after
              ((hrest.of_suffix hafter).of_suffix (List.suffix_cons p after))
            exact ((hitems.behind p).mono (Nat.zero_le 1)).map
          · exact isWithin_position ht _

/-- What follows a comma is taken, or else the closing mark is. -/
theorem consumes_closing (hts : AreScanned stop ts) (closing : String) (a : α)
    {more : List Token → Except Error (α × List Token)}
    (hmore : ∀ rest, rest <:+ ts → Consumes stop 1 rest (more rest)) :
    Consumes stop 1 ts (match accept? "," ts with
      | some rest => more rest
      | none => do
        let (_, rest) ← expect stop closing ts
        return (a, rest)) := by
  split
  · rename_i rest haccept
    obtain ⟨t, rfl⟩ := exists_cons_of_accept? haccept
    exact (hmore rest (List.suffix_cons t rest)).behind t
  · exact (consumes_expect hts closing).map (f := fun _ => a)

/-- The parser `parseItems` takes a token at least with one more step of fuel, if its parts do. -/
theorem ConsumesExpressions.parseItems (h : ConsumesExpressions stop fuel) (closing : String)
    (done : List Value) (hts : AreScanned stop ts) :
    Consumes stop 1 ts (parseItems stop closing (fuel + 1) done ts) := by
  rw [Source.parseItems]
  split
  · rename_i rest haccept
    obtain ⟨t, rfl⟩ := exists_cons_of_accept? haccept
    exact .of_cons
  · refine ((h.value ts hts).bind (n := 1) fun v rest hrest => ?_).mono (by omega)
    have hscanned := hts.of_suffix hrest
    exact consumes_closing hscanned closing (v :: done).reverse
      fun more hmore => h.items closing (v :: done) more (hscanned.of_suffix hmore)

/-- The parser `parseMembers` takes a token at least with one more step of fuel, if its parts do. -/
theorem ConsumesExpressions.parseMembers (h : ConsumesExpressions stop fuel)
    (done : List (Scalar × Value)) (hts : AreScanned stop ts) :
    Consumes stop 1 ts (parseMembers stop (fuel + 1) done ts) := by
  rw [Source.parseMembers]
  split
  · rename_i rest haccept
    obtain ⟨t, rfl⟩ := exists_cons_of_accept? haccept
    exact .of_cons
  · cases ts with
    | nil => exact isWithin_stop _
    | cons t rest =>
      -- The key, the colon and the value each leave a suffix of the tokens, all of which are
      -- scanned.
      have hrest := hts.of_suffix (List.suffix_cons t rest)
      show Consumes stop 1 (t :: rest) (decodeKey t >>= _)
      refine .of_bind (fun e he => isWithin_decodeKey (hts t List.mem_cons_self) he) fun key => ?_
      refine ((consumes_expect hrest ":").bind (n := 2) fun _ values hvalues => ?_).behind t
      have hvalues := hrest.of_suffix hvalues
      refine (h.value values hvalues).bind (n := 1) fun v more hmore => ?_
      have hmore := hvalues.of_suffix hmore
      exact consumes_closing hmore "\x7d" (Entries.put (.str key) v done)
        fun others hothers => h.members _ others (hmore.of_suffix hothers)

/-- Whatever the fuel, expressions take a token at least. The induction is on the fuel. -/
theorem consumesExpressions (stop fuel : ℕ) : ConsumesExpressions stop fuel := by
  induction fuel with
  | zero => exact consumesExpressions_zero stop
  | succ fuel ih =>
    exact ⟨fun ts hts => ih.parseValue hts,
      fun closing done ts hts => ih.parseItems closing done hts,
      fun done ts hts => ih.parseMembers done hts⟩

/-! ## The parser never breaks down -/

/-- A sequence whose first step takes tokens announces its errors, if all that follows does. -/
theorem Consumes.announced_bind {x : Except Error (α × List Token)}
    {f : α × List Token → Except Error β} {g : α × List Token → Outcome Error β}
    (hx : Consumes stop n ts x)
    (h : ∀ a rest, rest <:+ ts → rest.length + n ≤ ts.length →
      g (a, rest) = announced (f (a, rest))) :
    announced x >>= g = announced (x >>= f) := by
  cases x with
  | error e => rfl
  | ok r => exact h r.1 r.2 hx.1 hx.2

/-- A string token has the quotes that its first character says, so that `Unchecked.decodeString`
does not break down. -/
theorem unchecked_decodeString (h : IsScanned stop t) :
    Unchecked.decodeString t = announced (decodeString t) := by
  unfold Unchecked.decodeString
  obtain ⟨c, rest, hcs⟩ := List.exists_cons_of_ne_nil h.ne_nil
  rw [hcs]
  rfl

/-- A scanned token is decoded as a key without a breakdown, with the error of `decodeKey` where it
is none. -/
theorem unchecked_decodeKey (h : IsScanned stop t) :
    Unchecked.decodeKey t = announced (decodeKey t) := by
  unfold Unchecked.decodeKey decodeKey
  cases t.kind with
  | string => exact unchecked_decodeString h
  | _ => rfl

/-- A number token has the shape of a number, so that one of the readers of numbers finds it. -/
theorem unchecked_decodeNumber (h : IsScanned stop t) (hkind : t.kind = .number) :
    Unchecked.decodeNumber t.text = .ok (decodeNumber t.text) := by
  obtain ⟨negative, cs, hcs, hmagnitude⟩ := h.isNumber hkind
  unfold Unchecked.decodeNumber decodeNumber
  dsimp only
  -- A number with a point or an exponent is read as a float, any other as an integer.
  split_ifs with hmarks
  · obtain ⟨x, hx⟩ := Option.isSome_iff_exists.mp (Number.readDouble?_isSome hmagnitude negative)
    rw [hcs, hx]
    rfl
  · have hplain : ∀ c ∈ cs, c ≠ '.' ∧ c ≠ 'e' ∧ c ≠ 'E' := by
      intro c hc
      rw [Bool.not_eq_true, List.any_eq_false] at hmarks
      simpa [not_or, and_assoc] using hmarks c (hcs ▸ List.mem_append_right _ hc)
    obtain ⟨k, hk⟩ :=
      Option.isSome_iff_exists.mp (Number.readInt?_isSome hmagnitude negative hplain)
    rw [hcs, hk]
    rfl

/-- The parser `Unchecked.parsePath` does not break down with fuel for each token. -/
theorem unchecked_parsePath (hts : AreScanned stop ts) (path : List String)
    (hfuel : ts.length + 1 ≤ fuel) :
    Unchecked.parsePath stop fuel path ts = announced (parsePath stop path ts) := by
  induction fuel generalizing ts path with
  | zero => omega
  | succ fuel ih =>
    rw [Unchecked.parsePath]
    unfold parsePath
    -- Both parsers look for a point in the same way. Where it stands, one of them also checks that
    -- a token is behind it.
    split
    · rename_i haccept
      split
      · rfl
      · rename_i haccept'
        cases haccept.symm.trans haccept'
      · rename_i haccept'
        cases haccept.symm.trans haccept'
    · rename_i rest haccept
      obtain ⟨t, rfl⟩ := exists_cons_of_accept? haccept
      split
      · rename_i haccept'
        cases haccept.symm.trans haccept'
      · rename_i haccept'
        cases haccept.symm.trans haccept'
        rfl
      · rename_i part more haccept'
        cases haccept.symm.trans haccept'
        rw [List.length_cons, List.length_cons] at hfuel
        have hmore := (hts.of_suffix (List.suffix_cons t _)).of_suffix (List.suffix_cons part more)
        show (if part.kind = .name then _ else _) = announced (if part.kind = .name then _ else _)
        split
        · exact ih hmore _ (by omega)
        · rfl

/-- The parser of expressions does not break down with fuel for two steps a token, and how much fuel
there is beyond that does not matter. -/
structure ParsesExpressions (stop fuel : ℕ) : Prop where
  /-- A value is parsed. -/
  value : ∀ fuel' ts, AreScanned stop ts → 2 * ts.length + 1 ≤ fuel → 2 * ts.length + 1 ≤ fuel' →
    Unchecked.parseValue stop fuel ts = announced (parseValue stop fuel' ts)
  /-- The items of a list are parsed. -/
  items : ∀ closing fuel' done ts, AreScanned stop ts → 2 * ts.length + 2 ≤ fuel →
    2 * ts.length + 2 ≤ fuel' →
      Unchecked.parseItems stop closing fuel done ts
        = announced (parseItems stop closing fuel' done ts)
  /-- The members of an object are parsed. -/
  members : ∀ fuel' done ts, AreScanned stop ts → 2 * ts.length + 2 ≤ fuel →
    2 * ts.length + 2 ≤ fuel' →
      Unchecked.parseMembers stop fuel done ts = announced (parseMembers stop fuel' done ts)

/-- The parser `Unchecked.parseValue` does not break down with one more step of fuel, if its parts
do not. -/
theorem ParsesExpressions.parseValue (h : ParsesExpressions stop fuel) {fuel' : ℕ}
    (hts : AreScanned stop ts) (hfuel : 2 * ts.length ≤ fuel) (hfuel' : 2 * ts.length ≤ fuel') :
    Unchecked.parseValue stop (fuel + 1) ts = announced (parseValue stop (fuel' + 1) ts) := by
  rw [Unchecked.parseValue, Source.parseValue]
  cases ts with
  | nil => rfl
  | cons t rest =>
    have ht := hts t List.mem_cons_self
    have hrest := hts.of_suffix (List.suffix_cons t rest)
    rw [List.length_cons] at hfuel hfuel'
    rw [next_cons, announced_ok, Outcome.ok_bind, Outcome.ok_bind]
    dsimp only
    -- Both parsers take the same token and go on by its kind. What is left has fewer tokens, for
    -- which either fuel is enough.
    cases hkind : t.kind with
    | string =>
      dsimp only
      rw [unchecked_decodeString ht]
      exact announced_bind fun s _ => rfl
    | number =>
      dsimp only
      rw [unchecked_decodeNumber ht hkind]
      rfl
    | punctuation =>
      dsimp only
      split_ifs
      · rw [h.members fuel' [] rest hrest (by omega) (by omega)]
        exact announced_bind fun s _ => rfl
      · rw [h.items "]" fuel' [] rest hrest (by omega) (by omega)]
        exact announced_bind fun s _ => rfl
      · rfl
    | name =>
      dsimp only
      split_ifs
      · rfl
      · rfl
      · rfl
      · rw [unchecked_parsePath hrest _ (by omega)]
        refine (consumes_parsePath hrest _).announced_bind fun path after hafter hlen => ?_
        cases after with
        | nil => rfl
        | cons p after =>
          have hscanned := (hrest.of_suffix hafter).of_suffix (List.suffix_cons p after)
          rw [List.length_cons] at hlen
          dsimp only
          split_ifs
          · rw [h.items ")" fuel' [] after hscanned (by omega) (by omega)]
            exact announced_bind fun s _ => rfl
          · rfl

/-- What follows a comma, or else the closing mark, is parsed without a breakdown. -/
theorem unchecked_closing (hts : AreScanned stop ts) (closing : String) (a : α)
    {more : List Token → Except Error (α × List Token)}
    {more' : List Token → Outcome Error (α × List Token)}
    (hmore : ∀ rest, rest <:+ ts → rest.length < ts.length → more' rest = announced (more rest)) :
    (match accept? "," ts with
      | some rest => more' rest
      | none => do
        let (_, rest) ← announced (expect stop closing ts)
        return (a, rest))
      = announced (match accept? "," ts with
        | some rest => more rest
        | none => do
          let (_, rest) ← expect stop closing ts
          return (a, rest)) := by
  split
  · rename_i rest haccept
    obtain ⟨t, rfl⟩ := exists_cons_of_accept? haccept
    exact hmore rest (List.suffix_cons t rest) (by simp)
  · exact announced_bind fun _ _ => rfl

/-- The parser `Unchecked.parseItems` does not break down with one more step of fuel, if its parts
do not. -/
theorem ParsesExpressions.parseItems (h : ParsesExpressions stop fuel) {fuel' : ℕ}
    (closing : String) (done : List Value) (hts : AreScanned stop ts)
    (hfuel : 2 * ts.length + 1 ≤ fuel) (hfuel' : 2 * ts.length + 1 ≤ fuel') :
    Unchecked.parseItems stop closing (fuel + 1) done ts
      = announced (parseItems stop closing (fuel' + 1) done ts) := by
  rw [Unchecked.parseItems, Source.parseItems]
  cases accept? closing ts with
  | some rest => rfl
  | none =>
    dsimp only
    rw [h.value fuel' ts hts hfuel hfuel']
    have hvalue := (consumesExpressions stop fuel').value ts hts
    refine hvalue.announced_bind fun v rest hrest hlen => ?_
    have hscanned := hts.of_suffix hrest
    refine unchecked_closing hscanned closing (v :: done).reverse fun more hmore hshort => ?_
    exact h.items closing fuel' (v :: done) more (hscanned.of_suffix hmore) (by omega) (by omega)

/-- The parser `Unchecked.parseMembers` does not break down with one more step of fuel, if its parts
do not. -/
theorem ParsesExpressions.parseMembers (h : ParsesExpressions stop fuel) {fuel' : ℕ}
    (done : List (Scalar × Value)) (hts : AreScanned stop ts)
    (hfuel : 2 * ts.length + 1 ≤ fuel) (hfuel' : 2 * ts.length + 1 ≤ fuel') :
    Unchecked.parseMembers stop (fuel + 1) done ts
      = announced (parseMembers stop (fuel' + 1) done ts) := by
  rw [Unchecked.parseMembers, Source.parseMembers]
  cases accept? "\x7d" ts with
  | some rest => rfl
  | none =>
    cases ts with
    | nil => rfl
    | cons t rest =>
      have hrest := hts.of_suffix (List.suffix_cons t rest)
      rw [List.length_cons] at hfuel hfuel'
      show Unchecked.decodeKey t >>= _ = announced (decodeKey t >>= _)
      rw [unchecked_decodeKey (hts t List.mem_cons_self)]
      refine announced_bind fun key _ => ?_
      -- Key, colon, value and the mark behind them: each step leaves fewer scanned tokens.
      refine (consumes_expect hrest ":").announced_bind fun _ values hvalues hlen => ?_
      have hvalues := hrest.of_suffix hvalues
      dsimp only
      rw [h.value fuel' values hvalues (by omega) (by omega)]
      have hvalue := (consumesExpressions stop fuel').value values hvalues
      refine hvalue.announced_bind fun v more hmore hlen' => ?_
      have hmore := hvalues.of_suffix hmore
      refine unchecked_closing hmore "\x7d" (Entries.put (.str key) v done)
        fun others hothers hshort => ?_
      exact h.members fuel' _ others (hmore.of_suffix hothers) (by omega) (by omega)

/-- Whatever the fuel, expressions are parsed without a breakdown if it is enough. The induction is
on the fuel. -/
theorem parsesExpressions (stop fuel : ℕ) : ParsesExpressions stop fuel := by
  -- The three parsers call one another, each with one step less of fuel.
  induction fuel with
  | zero => exact ⟨fun _ _ _ h => by omega, fun _ _ _ _ _ h => by omega, fun _ _ _ _ h => by omega⟩
  | succ fuel ih =>
    refine ⟨fun fuel' ts hts h h' => ?_, fun closing fuel' done ts hts h h' => ?_,
      fun fuel' done ts hts h h' => ?_⟩
    · obtain ⟨fuel', rfl⟩ : ∃ k, fuel' = k + 1 := ⟨fuel' - 1, by omega⟩
      exact ih.parseValue hts (by omega) (by omega)
    · obtain ⟨fuel', rfl⟩ : ∃ k, fuel' = k + 1 := ⟨fuel' - 1, by omega⟩
      exact ih.parseItems closing done hts (by omega) (by omega)
    · obtain ⟨fuel', rfl⟩ : ∃ k, fuel' = k + 1 := ⟨fuel' - 1, by omega⟩
      exact ih.parseMembers done hts (by omega) (by omega)

/-! ## Imports and exports -/

/-- The parser `parseImported` leaves a suffix of the tokens. -/
theorem consumes_parseImported (hts : AreScanned stop ts) (fuel : ℕ) (builder : Option String) :
    Consumes stop 0 ts (parseImported stop fuel builder ts) := by
  induction fuel generalizing builder ts with
  | zero => exact isWithin_stop _
  | succ fuel ih =>
    -- Behind a name the others follow, with or without a comma between them.
    have hmore : ∀ builder more, more <:+ ts →
        Consumes stop 0 more (parseImported stop fuel builder ((accept? "," more).getD more)) := by
      intro builder more hmore
      have hafter := suffix_accept? "," more
      exact (ih (hts.of_suffix (hafter.trans hmore)) builder).of_suffix hafter hafter.length_le
    rw [parseImported]
    split
    · rename_i rest haccept
      obtain ⟨t, rfl⟩ := exists_cons_of_accept? haccept
      exact (Consumes.of_cons (t := t)).mono (Nat.zero_le 1)
    · refine (consumes_next.bind (n := 0) fun imported rest hrest => ?_).mono (Nat.zero_le 1)
      dsimp only
      split
      · rename_i named haccept
        obtain ⟨t, rfl⟩ := exists_cons_of_accept? haccept
        have hnamed := (List.suffix_cons t named).trans hrest
        refine Consumes.mono ((consumes_next.bind (n := 0) fun name more hname => ?_).behind t)
          (Nat.zero_le 1)
        exact hmore _ more (hname.trans hnamed)
      · exact hmore _ rest hrest

/-- The parser `Unchecked.parseImported` does not break down with fuel for each token. -/
theorem unchecked_parseImported (hts : AreScanned stop ts) {fuel fuel' : ℕ}
    (hfuel : ts.length < fuel) (hfuel' : ts.length < fuel') (builder : Option String) :
    Unchecked.parseImported stop fuel builder ts
      = announced (parseImported stop fuel' builder ts) := by
  induction fuel generalizing fuel' builder ts with
  | zero => omega
  | succ fuel ih =>
    obtain ⟨fuel', rfl⟩ : ∃ k, fuel' = k + 1 := ⟨fuel' - 1, by omega⟩
    -- Behind a name the others follow, and they have fewer tokens than there is fuel for.
    have hmore : ∀ builder more, more <:+ ts → more.length < ts.length →
        Unchecked.parseImported stop fuel builder ((accept? "," more).getD more)
          = announced (parseImported stop fuel' builder ((accept? "," more).getD more)) := by
      intro builder more hmore hshort
      have hafter := suffix_accept? "," more
      have := hafter.length_le
      exact ih (hts.of_suffix (hafter.trans hmore)) (by omega) (by omega) builder
    rw [Unchecked.parseImported, parseImported]
    cases accept? "\x7d" ts with
    | some rest => rfl
    | none =>
      refine consumes_next.announced_bind fun imported rest hrest hlen => ?_
      dsimp only
      cases haccept : accept? "as" rest with
      | some named =>
        obtain ⟨t, rfl⟩ := exists_cons_of_accept? haccept
        have hnamed := (List.suffix_cons t named).trans hrest
        rw [List.length_cons] at hlen
        refine consumes_next.announced_bind fun name more hname hlen' => ?_
        exact hmore _ more (hname.trans hnamed) (by omega)
      | none => exact hmore _ rest hrest (by omega)

/-- The parser `parseImport` takes one token at least. -/
theorem consumes_parseImport (hts : AreScanned stop ts) :
    Consumes stop 0 ts (parseImport stop ts) := by
  refine ((consumes_expect hts "\x7b").bind (n := 0) fun _ names hnames => ?_).mono (Nat.zero_le 1)
  have hnames := hts.of_suffix hnames
  refine (consumes_parseImported hnames _ _).bind (n := 0) fun builder rest hrest => ?_
  have hrest := hnames.of_suffix hrest
  refine ((consumes_expect hrest "from").bind (n := 0) fun _ more hmore => ?_).mono (Nat.zero_le 1)
  have hmore := hrest.of_suffix hmore
  cases more with
  | nil => exact isWithin_stop _
  | cons path more =>
    show Consumes stop 0 (path :: more) (if path.kind ≠ .string then _ else _)
    split
    · exact isWithin_position (hmore path List.mem_cons_self) _
    · have hafter := suffix_accept? ";" more
      exact ⟨hafter.trans (List.suffix_cons path more),
        hafter.length_le.trans (Nat.le_succ more.length)⟩

/-- The parser `Unchecked.parseImport` does not break down with fuel for each token. -/
theorem unchecked_parseImport (hts : AreScanned stop ts) (hfuel : ts.length ≤ fuel) :
    Unchecked.parseImport stop fuel ts = announced (parseImport stop ts) := by
  refine (consumes_expect hts "\x7b").announced_bind fun _ names hnames hlen => ?_
  have hnames := hts.of_suffix hnames
  dsimp only
  rw [unchecked_parseImported hnames (by omega) (Nat.lt_succ_self _)]
  refine (consumes_parseImported hnames _ _).announced_bind fun builder rest hrest _ => ?_
  have hrest := hnames.of_suffix hrest
  refine (consumes_expect hrest "from").announced_bind fun _ more hmore _ => ?_
  refine announced_bind fun r _ => ?_
  dsimp only
  split
  · rfl
  · rfl

/-! ## Modules -/

/-- A step that might break down announces what another one does, whose errors lie in the text. -/
structure Announces (stop : ℕ) (x : Except Error α) (y : Outcome Error α) : Prop where
  /-- The step does not break down. -/
  eq : y = announced x
  /-- The places of errors are in the text. -/
  isWithin : ∀ e, x = .error e → e.IsWithin stop

namespace Announces

/-- A step with the same result on both sides announces what is wrong, since nothing is. -/
theorem ok (stop : ℕ) (a : α) : Announces stop (.ok a) (.ok a) := ⟨rfl, fun _ h => nomatch h⟩

/-- The refusal of an error whose place is in the text `Announces` the step that gives the error. -/
theorem error {e : Error} (h : e.IsWithin stop) :
    Announces (α := α) stop (.error e) (refuse e) := by
  refine ⟨rfl, ?_⟩
  rintro _ ⟨⟩
  exact h

/-- The refusal of an error without a place `Announces` the step that gives it, wherever the text
ends. -/
theorem unplaced (stop : ℕ) (cause : Cause) :
    Announces (α := α) stop (.error ⟨cause, none⟩) (refuse ⟨cause, none⟩) :=
  error fun _ h => nomatch h

/-- Two steps announce what they do if each of them does, the second one on every result of the
first. -/
theorem bind {x : Except Error α} {y : Outcome Error α} {f : α → Except Error β}
    {g : α → Outcome Error β} (h : Announces stop x y)
    (hf : ∀ a, x = .ok a → Announces stop (f a) (g a)) : Announces stop (x >>= f) (y >>= g) := by
  obtain ⟨rfl, hwithin⟩ := h
  cases x with
  | error e => exact error (hwithin e rfl)
  | ok a => exact hf a rfl

end Announces

/-- Steps behind one that `Consumes` tokens announce what they do, on the suffix that it leaves. -/
theorem Consumes.announces {x : Except Error (α × List Token)}
    {f : α × List Token → Except Error β} {g : α × List Token → Outcome Error β}
    (hx : Consumes stop n ts x) (h : ∀ a rest, rest <:+ ts → rest.length + n ≤ ts.length →
      Announces stop (f (a, rest)) (g (a, rest))) :
    Announces stop (x >>= f) (announced x >>= g) := by
  cases x with
  | error e => exact .error hx
  | ok r => exact h r.1 r.2 hx.1 hx.2

/-- The parser `Unchecked.parseExport` does not break down with fuel for two steps a token. -/
theorem announces_parseExport (hts : AreScanned stop ts) (hfuel : 2 * ts.length ≤ fuel) :
    Announces stop (parseExport stop ts) (Unchecked.parseExport stop fuel ts) := by
  refine (consumes_expect hts "const").announces fun _ rest hrest hlen => ?_
  have hrest := hts.of_suffix hrest
  cases rest with
  | nil => exact .error (isWithin_stop _)
  | cons name rest =>
    rw [List.length_cons] at hlen
    show Announces stop (if name.kind ≠ .name then _ else _) (if name.kind ≠ .name then _ else _)
    split
    · exact .error (isWithin_position (hrest name List.mem_cons_self) _)
    · have hrest := hrest.of_suffix (List.suffix_cons name rest)
      refine (consumes_expect hrest "=").announces fun _ value hvalue hlen' => ?_
      have hvalue := hrest.of_suffix hvalue
      dsimp only
      -- The value is the same with the fuel of either parser, and it takes a part of the tokens.
      rw [(parsesExpressions stop fuel).value (fuelFor value) value hvalue (by omega)
        (by rw [fuelFor]; omega)]
      refine ((consumesExpressions stop _).value value hvalue).announces fun v more hmore _ => ?_
      have hafter := (hvalue.of_suffix hmore).of_suffix (suffix_accept? ";" more)
      dsimp only
      -- Nothing may stand behind the value and its semicolon.
      cases hend : (accept? ";" more).getD more with
      | nil => exact .ok stop v
      | cons t after =>
        rw [hend] at hafter
        exact .error (isWithin_position (hafter t List.mem_cons_self) _)

/-- The parser `Unchecked.parseModule` does not break down with fuel for two steps a token. -/
theorem announces_parseModule (hts : AreScanned stop ts) {fuel fuel' : ℕ}
    (hfuel : 2 * ts.length < fuel) (hfuel' : ts.length < fuel') (builder : String) :
    Announces stop (parseModule stop fuel' builder ts)
      (Unchecked.parseModule stop fuel builder ts) := by
  induction fuel generalizing fuel' builder ts with
  | zero => omega
  | succ fuel ih =>
    obtain ⟨fuel', rfl⟩ : ∃ k, fuel' = k + 1 := ⟨fuel' - 1, by omega⟩
    rw [parseModule, Unchecked.parseModule]
    cases ts with
    | nil => exact .error (isWithin_stop _)
    | cons t rest =>
      have hrest := hts.of_suffix (List.suffix_cons t rest)
      rw [List.length_cons] at hfuel hfuel'
      show Announces stop (if t.kind = .name ∧ t.text = "import" then _ else _)
        (if t.kind = .name ∧ t.text = "import" then _ else _)
      -- The module goes on behind an import, and ends with an export.
      split
      · rw [unchecked_parseImport hrest (by omega)]
        refine (consumes_parseImport hrest).announces fun imported more hmore hlen => ?_
        exact ih (hrest.of_suffix hmore) (by omega) (by omega) _
      · split
        · exact (announces_parseExport hrest (by omega)).bind fun v _ => .ok stop (builder, v)
        · exact .error (isWithin_position (hts t List.mem_cons_self) _)

/-! ## Schemas -/

/-- The members of an object are there to be taken. -/
theorem lift_membersOf (members : List (Scalar × Value)) :
    (liftM (Unchecked.membersOf (.mapping members)) : Outcome Error _) = .ok members := rfl

/-- The first one of some values is there to be taken. -/
theorem lift_itemAt_zero (v : Value) (rest : List Value) :
    (liftM (Unchecked.itemAt (v :: rest) 0) : Outcome Error Value) = .ok v := rfl

/-- The argument of an index is there, or its absence is announced: `Unchecked.argument` never takes
an item behind the end. -/
theorem announces_argument (stop : ℕ) (path : List String) (arguments : List Value) (index : ℕ) :
    Announces stop (argument path arguments index)
      (Unchecked.argument (.call path arguments) index) := by
  show Announces stop _ (if arguments.length ≤ index then _
    else (liftM (Unchecked.itemAt arguments index) : Outcome Error Value))
  unfold argument Unchecked.itemAt
  split_ifs with hlen
  · rw [List.getElem?_eq_none hlen]
    exact .unplaced stop _
  · rw [List.getElem?_eq_getElem (by omega)]
    exact .ok stop _

/-- A path of another length than three is not that of a default, and is refused. -/
theorem loadDefault_of_length (builder : String) {path : List String} (hlen : path.length ≠ 3)
    (arguments : List Value) :
    loadDefault builder (.call path arguments) = .error ⟨.badDefault path, none⟩ := by
  rw [loadDefault]
  rintro space name rfl
  exact hlen rfl

/-- The loader `Unchecked.loadDefault` takes a default apart only if it is a call of three names. -/
theorem announces_loadDefault (stop : ℕ) (builder : String) (v : Value) :
    Announces stop (loadDefault builder v) (Unchecked.loadDefault builder v) := by
  cases v with
  | call path arguments =>
    show Announces stop _ (if path.length ≠ 3 then _ else _)
    -- One loader looks at the names as a pattern, the other counts them first and then compares
    -- them one by one.
    split_ifs with hlen
    · rw [loadDefault_of_length builder hlen]
      exact .unplaced stop _
    · obtain ⟨space, kind, name, rfl⟩ := List.length_eq_three.mp (not_not.mp hlen)
      show Announces stop _ (if space ≠ builder then _
        else if kind ≠ "Default" then _ else .ok (Value.function name arguments))
      by_cases hkind : kind = "Default"
      · subst hkind
        show Announces stop (if space = builder then _ else _) _
        by_cases hspace : space = builder
        · rw [if_pos hspace, if_neg (not_not.mpr hspace)]
          exact .ok stop _
        · rw [if_neg hspace, if_pos hspace]
          exact .unplaced stop _
      · have hbad : loadDefault builder (.call [space, kind, name] arguments)
            = .error ⟨.badDefault [space, kind, name], none⟩ := by
          rw [loadDefault]
          intro space' name' heq
          exact hkind (List.cons.inj (List.cons.inj heq).2).1
        rw [hbad, if_pos hkind, ite_self]
        exact .unplaced stop _
  | _ => exact .ok stop _

/-- The loader `Unchecked.loadOptions` takes options apart only if they are an object. -/
theorem announces_loadOptions (stop : ℕ) (builder : String) (arguments : List Value) :
    Announces stop (loadOptions builder arguments) (Unchecked.loadOptions builder arguments) := by
  cases arguments with
  | nil => exact .ok stop _
  | cons v rest =>
    cases v with
    | mapping members =>
      rw [loadOptions, Unchecked.loadOptions, if_neg (by exact Bool.false_ne_true),
        lift_itemAt_zero, Outcome.ok_bind, if_neg (by exact Bool.false_ne_true), lift_membersOf,
        Outcome.ok_bind]
      cases Value.field? "default" members with
      | none => exact .ok stop _
      | some d => exact (announces_loadDefault stop builder d).bind fun d _ => .ok stop _
    | _ => exact .unplaced stop _

/-- The loader `Unchecked.loadRelation` takes a query apart only if it is an object. -/
theorem announces_loadRelation (stop : ℕ) (cardinality : String) (path : List String)
    (arguments : List Value) :
    Announces stop (loadRelation cardinality path arguments)
      (Unchecked.loadRelation cardinality (.call path arguments)) := by
  refine (announces_argument stop path arguments 0).bind fun target _ => ?_
  -- The second argument is asked for only if there is one, and a missing one is an empty query.
  have hquery : (if 1 < arguments.length then Unchecked.itemAt arguments 1 else .ok (.mapping []))
      = .ok (arguments[1]?.getD (.mapping [])) := by
    unfold Unchecked.itemAt
    split_ifs with hlen
    · rw [List.getElem?_eq_getElem hlen]
      rfl
    · rw [List.getElem?_eq_none (by omega)]
      rfl
  show Announces stop _ ((liftM (if 1 < arguments.length then Unchecked.itemAt arguments 1
    else .ok (.mapping [])) : Outcome Error Value) >>= _)
  rw [hquery]
  cases arguments[1]?.getD (.mapping []) with
  | mapping members => exact .ok stop _
  | _ => exact .unplaced stop _

/-- The loader `Unchecked.loadRelationById` takes arguments only after it has asked for them. -/
theorem announces_loadRelationById (stop : ℕ) (path : List String) (arguments : List Value) :
    Announces stop (loadRelationById path arguments)
      (Unchecked.loadRelationById (.call path arguments)) :=
  (announces_argument stop path arguments 0).bind fun _ _ =>
    (announces_argument stop path arguments 1).bind fun _ _ => .ok stop _

/-- A value that is no call of a constructor is no attribute, and is refused as such. -/
theorem loadAttribute_of_constructor? {builder : String} {v : Value}
    (h : constructor? builder v = none) :
    loadAttribute builder v = .error ⟨.badAttribute v, none⟩ := by
  unfold constructor? at h
  unfold loadAttribute
  split
  · rename_i space name arguments
    dsimp only at h
    split_ifs at h with hspace
    rw [if_pos hspace]
  · rfl

section Attribute

variable {builder : String} {fuel : ℕ}

/-- The loader `Unchecked.loadMembers` makes a tree without a breakdown if its attributes are made
so. -/
theorem announces_loadMembers {load : Value → Outcome Error (Attribute × Bool)}
    {members : List (Scalar × Value)}
    (h : ∀ e ∈ members, Announces stop (loadAttribute builder e.2) (load e.2)) :
    Announces stop (loadMembers builder members) (Unchecked.loadMembers load members) := by
  induction members with
  | nil => exact .ok stop _
  | cons e members ih =>
    rw [loadMembers]
    refine (h e List.mem_cons_self).bind fun r _ => ?_
    exact (ih fun f hf => h f (List.mem_cons_of_mem e hf)).bind fun t _ => .ok stop _

/-- A set is made of primitive attributes only, with the options behind them, and anything else is
refused. -/
theorem announces_makeSet (items : Attribute) (rest : List Value) :
    Announces stop (makeSet builder items rest >>= fun a => .ok (a, false))
      (match items with
        | .primitive .. => do
          return (.set items (← Unchecked.loadOptions builder rest), false)
        | _ => refuse ⟨.compoundItems, none⟩) := by
  cases items with
  | primitive =>
    rw [makeSet, bind_assoc]
    exact (announces_loadOptions stop builder rest).bind fun o _ => .ok stop _
  | _ => exact .unplaced stop _

/-- The loader `Unchecked.loadAttribute` does not break down with fuel for the size of the value.
The induction is on the fuel, since every part is smaller. -/
theorem announces_loadAttribute {v : Value} (hfuel : v.size < fuel) :
    Announces stop (loadAttribute builder v) (Unchecked.loadAttribute builder fuel v) := by
  induction fuel generalizing v with
  | zero => omega
  | succ fuel ih =>
    rw [Unchecked.loadAttribute]
    cases hconstructor : constructor? builder v with
    | none =>
      rw [loadAttribute_of_constructor? hconstructor]
      exact .unplaced stop _
    | some name =>
      obtain ⟨arguments, rfl⟩ := exists_call_of_constructor? hconstructor
      -- What is loaded in turn is a part of the call, and smaller.
      have hargument : ∀ v rest, arguments = v :: rest → v.size < fuel := by
        rintro v rest rfl
        rw [Value.size, Value.sizeAll] at hfuel
        omega
      unfold loadAttribute
      rw [if_neg (by simp)]
      dsimp only
      by_cases hoptional : name = "Optional"
      · rw [if_pos hoptional, if_pos hoptional]
        cases arguments with
        | nil => exact .unplaced stop _
        | cons v rest => exact (ih (hargument v rest rfl)).bind fun r _ => .ok stop _
      rw [if_neg hoptional, if_neg hoptional]
      cases kindOf? name with
      | some kind => exact (announces_loadOptions stop builder arguments).bind fun o _ => .ok stop _
      | none =>
        dsimp only
        split_ifs
        · cases arguments with
          | nil => exact .unplaced stop _
          | cons v rest =>
            refine (ih (hargument v rest rfl)).bind fun r _ => ?_
            exact announces_makeSet r.1 rest
        · cases arguments with
          | nil => exact .unplaced stop _
          | cons v rest =>
            have hsize := hargument v rest rfl
            cases v with
            | mapping members =>
              refine (announces_loadMembers fun e he => ih ?_).bind fun t _ => .ok stop _
              have := Value.size_le_sizeEntries he
              rw [Value.size] at hsize
              omega
            | _ => exact .unplaced stop _
        · exact (announces_loadRelationById stop _ arguments).bind fun a _ => .ok stop _
        · exact (announces_loadRelation stop "one" _ arguments).bind fun a _ => .ok stop _
        · exact (announces_loadRelation stop "many" _ arguments).bind fun a _ => .ok stop _
        · exact .unplaced stop _

end Attribute

/-! ## The loader -/

section Loader

variable {builder : String} {fuel : ℕ}

/-- The loader `Unchecked.loadTree` takes an argument apart only if it is an object. -/
theorem announces_loadTree {v : Value} (hfuel : v.size ≤ fuel) :
    Announces stop (loadTree builder v)
      (Unchecked.loadTree (Unchecked.loadAttribute builder fuel) v) := by
  cases v with
  | mapping members =>
    refine announces_loadMembers fun e he => announces_loadAttribute ?_
    have := Value.size_le_sizeEntries he
    rw [Value.size] at hfuel
    omega
  | _ => exact .unplaced stop _

/-- The loader `Unchecked.loadRoot` makes the tree of a collection without a breakdown. -/
theorem announces_loadRoot {v : Value} (hfuel : v.size < fuel) :
    Announces stop (loadRoot builder v) (Unchecked.loadRoot builder fuel v) := by
  unfold Unchecked.loadRoot
  split_ifs with hschema
  · rw [loadRoot_of_constructor? hschema]
    exact .unplaced stop _
  · rw [not_not] at hschema
    obtain ⟨arguments, rfl⟩ := exists_call_of_constructor? hschema
    unfold loadRoot
    rw [hschema]
    -- A missing argument stands for an object without members, which is no larger than the call.
    have hsize : (arguments.head?.getD (.mapping [])).size ≤ fuel := by
      rw [Value.size] at hfuel
      cases arguments with
      | nil =>
        show 1 ≤ fuel
        omega
      | cons v rest =>
        rw [Value.sizeAll] at hfuel
        show v.size ≤ fuel
        omega
    have htree : Announces stop (loadTree builder (arguments.head?.getD (.mapping [])))
        (Unchecked.loadTree (Unchecked.loadAttribute builder fuel)
          (arguments.head?.getD (.mapping []))) := announces_loadTree hsize
    cases arguments with
    | nil => exact htree
    | cons v rest => exact htree

/-- The loader `Unchecked.loadCollection` makes a collection without a breakdown. -/
theorem announces_loadCollection (name : String) {v : Value} (hfuel : v.size < fuel) :
    Announces stop (loadCollection builder name v)
      (Unchecked.loadCollection builder fuel name v) := by
  cases v with
  | mapping members =>
    rw [loadCollection, Unchecked.loadCollection, if_neg (by exact Bool.false_ne_true),
      lift_membersOf, Outcome.ok_bind, Entries.has, ← Value.field?]
    unfold Unchecked.entryOf
    cases hroot : Value.field? "schema" members with
    | none => exact .unplaced stop _
    | some root =>
      obtain ⟨k, hk⟩ := Entries.exists_mem_of_get? hroot
      -- The root is a part of the collection, so that the fuel for the latter is more than enough.
      have hsize := Value.size_le_sizeEntries hk
      rw [Value.size] at hfuel
      dsimp only at hsize
      exact (announces_loadRoot (by omega)).bind fun t _ => .ok stop _
  | _ => exact .unplaced stop _

/-- The loader `Unchecked.loadCollections` makes collections without a breakdown, one after the
other. -/
theorem announces_loadCollections {members : List (Scalar × Value)}
    (hfuel : ∀ e ∈ members, e.2.size < fuel) :
    Announces stop (loadCollections builder members)
      (Unchecked.loadCollections builder fuel members) := by
  induction members with
  | nil => exact .ok stop _
  | cons e members ih =>
    refine (announces_loadCollection _ (hfuel e List.mem_cons_self)).bind fun c _ => ?_
    exact (ih fun f hf => hfuel f (List.mem_cons_of_mem e hf)).bind fun cs _ => .ok stop _

/-- The loader `Unchecked.loadSchema` makes a schema without a breakdown. -/
theorem announces_loadSchema {v : Value} (hfuel : v.size ≤ fuel) :
    Announces stop (loadSchema builder v) (Unchecked.loadSchema builder fuel v) := by
  cases v with
  | mapping members =>
    refine (announces_loadCollections fun e he => ?_).bind fun cs _ => .ok stop _
    have := Value.size_le_sizeEntries he
    rw [Value.size] at hfuel
    omega
  | _ => exact .unplaced stop _

end Loader

/-- For every text there is fuel with which `Unchecked.load` does what `load` does, and more fuel
makes no difference. -/
theorem exists_announces_load (text : List Char) : ∃ steps, ∀ more,
    Announces text.length (load text) (Unchecked.load (steps + more) text) := by
  unfold load Unchecked.load
  cases htokens : tokens text with
  | error e => exact ⟨0, fun more => .error (isWithin_tokens htokens)⟩
  | ok ts =>
    have hmodule : ∀ fuel, 2 * ts.length < fuel → Announces text.length
        (parseModule text.length (ts.length + 1) load.builderAlias ts)
        (Unchecked.parseModule text.length fuel load.builderAlias ts) := fun fuel hfuel =>
      announces_parseModule (isScanned_tokens htokens) hfuel (Nat.lt_succ_self _) _
    -- How deep the exported value is, is known when it is parsed.
    cases hparsed : parseModule text.length (ts.length + 1) load.builderAlias ts with
    | error e =>
      refine ⟨2 * ts.length + 1, fun more => (Announces.ok _ ts).bind fun _ h => ?_⟩
      cases h
      refine (hmodule _ (by omega)).bind fun r hr => ?_
      cases hparsed.symm.trans hr
    | ok r =>
      refine ⟨2 * ts.length + 1 + r.2.size, fun more => (Announces.ok _ ts).bind fun _ h => ?_⟩
      cases h
      refine (hmodule _ (by omega)).bind fun r' hr => ?_
      cases hparsed.symm.trans hr
      exact announces_loadSchema (by omega)

/-- Whatever a text is, there is a number of steps after which loading it has come to an end, and it
ends with a schema, or with an error that it announces; never with a breakdown (section 7 of the
specification). The place of the error, if it has one, is no further than the end of the text. -/
theorem load_total (text : List Char) : ∃ steps,
    (∃ s, load text = .ok s ∧ ∀ more, Unchecked.load (steps + more) text = .ok s) ∨
      ∃ e, load text = .error e ∧
        (∀ more, Unchecked.load (steps + more) text = .error (.refused e)) ∧
          e.position.all (· ≤ text.length) = true := by
  obtain ⟨steps, hsteps⟩ := exists_announces_load text
  refine ⟨steps, ?_⟩
  cases hload : load text with
  | ok s => exact .inl ⟨s, rfl, fun more => by rw [(hsteps more).eq, hload]; rfl⟩
  | error e =>
    refine .inr ⟨e, rfl, fun more => by rw [(hsteps more).eq, hload]; rfl, ?_⟩
    have hwithin := (hsteps 0).isWithin e hload
    rw [Option.all_eq_true]
    exact fun p hp => decide_eq_true (hwithin p hp)

end SchemaForge.Source
