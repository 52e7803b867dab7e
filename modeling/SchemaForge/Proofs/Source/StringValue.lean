import SchemaForge.Proofs.Source.Decoding
import SchemaForge.Proofs.Source.Lexeme

/-!
# String literals are not misread

Strings are written as JSON has them (section 4.1 of the specification), and a formatter may write
them otherwise. The value of a string literal of the module language is a sequence of UTF-16 units:
`literalUnits?` follows ECMA-262, with its line continuations and all its escapes, of which JSON
knows only some. A string token is refused, or it is decoded to the text that has just these units
(`decodeString_spec`). A value with half of a pair alone is the value of no text, and of such a
literal nothing is said.

Between double quotes a token is read by the rules of JSON. What these accept is put together of
pieces that mean the same in both languages (`WritesUnits`). Between single quotes the contents are
requoted first; if this can be read, the pieces were the same before, since no backslash that is
itself escaped stands before a quote (`WritesUnits.of_requote`).
-/

namespace SchemaForge

/-! ## UTF-16 -/

namespace Text

variable {c : Char} {m n : ℕ} {units : List ℕ} {cs : List Char}

/-- The UTF-16 units of a code point: itself, or the two of a surrogate pair. -/
def codeUnits (n : ℕ) : List ℕ :=
  if n < 0x10000 then [n] else [0xd800 + (n - 0x10000) / 0x400, 0xdc00 + (n - 0x10000) % 0x400]

/-- The UTF-16 units of a text, one or two for each character. -/
def units16 (cs : List Char) : List ℕ := cs.flatMap fun c => codeUnits c.toNat

/-- The number of a character is no half of a surrogate pair (`Nat.isValidChar`). -/
theorem isValidChar_toNat (c : Char) : c.toNat.isValidChar := c.valid

/-- The first unit of a character is not the second half of a pair, so that characters do not
merge. -/
theorem isLowSurrogate_head (c : Char) (h : (codeUnits c.toNat).head? = some m) :
    isLowSurrogate m = false := by
  have hvalid := isValidChar_toNat c
  unfold codeUnits at h
  unfold isLowSurrogate
  rw [← Bool.not_eq_true, Bool.and_eq_true, decide_eq_true_iff, decide_eq_true_iff]
  split_ifs at h with hn
  · have hm : c.toNat = m := Option.some.inj h
    rcases hvalid with hlow | ⟨hhigh, -⟩
    · omega
    · omega
  · have hm : 0xd800 + (c.toNat - 0x10000) / 0x400 = m := Option.some.inj h
    have hbound : c.toNat < 0x110000 := by
      rcases hvalid with hlow | ⟨-, hhigh⟩ <;> omega
    omega

/-- A unit that makes no pair with the next one is a character of its own, or there is no text. -/
theorem ofUnits16?_cons
    (h : isHighSurrogate n = true → ∀ m, units.head? = some m → isLowSurrogate m = false) :
    ofUnits16? (n :: units)
      = if n.isValidChar then (ofUnits16? units).map (Char.ofNat n :: ·) else none := by
  cases units with
  | nil =>
    show ofCodePoints? [n] = _
    rw [ofCodePoints?, ofCodePoints?, ofUnits16?]
  | cons m rest =>
    rw [ofUnits16?, if_neg]
    rintro hpair
    obtain ⟨hn, hm⟩ := Bool.and_eq_true_iff.mp hpair
    rw [h hn m rfl] at hm
    cases hm

/-- The `codeUnits` of a character in front are read as the character by `ofUnits16?`. -/
theorem ofUnits16?_codeUnits (c : Char) (units : List ℕ) :
    ofUnits16? (codeUnits c.toNat ++ units) = (ofUnits16? units).map (c :: ·) := by
  have hvalid := isValidChar_toNat c
  unfold codeUnits
  split_ifs with hn
  -- A single unit is no surrogate, and so begins no pair.
  · have hhigh : isHighSurrogate c.toNat = false := by
      unfold isHighSurrogate
      rw [← Bool.not_eq_true, Bool.and_eq_true, decide_eq_true_iff, decide_eq_true_iff]
      rcases hvalid with hlow | ⟨hhigh, -⟩ <;> omega
    rw [List.singleton_append, ofUnits16?_cons (by rw [hhigh]; exact nofun), if_pos hvalid,
      Char.ofNat_toNat]
  -- Two units are a pair, and joining them undoes the division.
  · have hbound : c.toNat < 0x110000 := by
      rcases hvalid with hlow | ⟨-, hhigh⟩ <;> omega
    have hhigh : isHighSurrogate (0xd800 + (c.toNat - 0x10000) / 0x400) = true := by
      unfold isHighSurrogate
      rw [Bool.and_eq_true, decide_eq_true_iff, decide_eq_true_iff]
      omega
    have hlow : isLowSurrogate (0xdc00 + (c.toNat - 0x10000) % 0x400) = true := by
      unfold isLowSurrogate
      rw [Bool.and_eq_true, decide_eq_true_iff, decide_eq_true_iff]
      omega
    have hjoin : joinSurrogates (0xd800 + (c.toNat - 0x10000) / 0x400)
        (0xdc00 + (c.toNat - 0x10000) % 0x400) = c.toNat := by
      unfold joinSurrogates
      omega
    show ofUnits16? (_ :: _ :: units) = _
    rw [ofUnits16?, hhigh, hlow, Bool.and_true, if_pos rfl, hjoin, Char.ofNat_toNat]

/-- The units of a text are read as the text, so that a literal and a text can be compared by
units. -/
theorem ofUnits16?_units16 (cs : List Char) : ofUnits16? (units16 cs) = some cs := by
  induction cs with
  | nil => rfl
  | cons c cs ih =>
    rw [units16, List.flatMap_cons, ofUnits16?_codeUnits, ← units16, ih, Option.map_some]

end Text

namespace Source

open Text (codeUnits units16)

/-! ## The value of a literal -/

/-- Whether a character ends a line in the module language, which knows four such characters. -/
def isLineEnd (c : Char) : Bool :=
  c == '\n' || c == '\r' || c == '\u2028' || c == '\u2029'

/-- The number that hexadecimal digits stand for, by `Json.hexValue?` of each. -/
def hexNumber? (digits : List Char) : Option ℕ :=
  digits.foldlM (fun n d => (Json.hexValue? d).map (16 * n + ·)) 0

/-- The character that an escape by a character stands for: itself, unless it is the letter of
another one. -/
def escapedLetter : Char → Char
  | 'b' => Char.ofNat 8
  | 'f' => Char.ofNat 12
  | 'n' => '\n'
  | 'r' => '\r'
  | 't' => '\t'
  | 'v' => Char.ofNat 11
  | c => c

/-- The units that an escape stands for, seen from behind its backslash, and how many characters
belong to it. A line that is continued stands for nothing. -/
def escape? : List Char → Option (List ℕ × ℕ)
  | [] => none
  | 'u' :: '\x7b' :: rest =>
    let digits := rest.takeWhile (· ≠ '\x7d')
    if digits.isEmpty || digits.length == rest.length then none
    else (hexNumber? digits).bind fun n =>
      if n ≤ 0x10ffff then some (codeUnits n, digits.length + 3) else none
  | 'u' :: a :: b :: c :: d :: _ => (Json.hex4? a b c d).map fun n => ([n], 5)
  | 'x' :: a :: b :: _ => (hexNumber? [a, b]).map fun n => ([n], 3)
  | '\r' :: '\n' :: _ => some ([], 2)
  | c :: rest =>
    if c = 'u' ∨ c = 'x' then none
    else if isLineEnd c then some ([], 1)
    else if Json.isAsciiDigit c then
      if c = '0' ∧ rest.head?.any Json.isAsciiDigit = false then some ([0], 1) else none
    else some (codeUnits (escapedLetter c).toNat, 1)

/-- The units of a literal between quotes `q`, seen from behind the opening one. The closing quote
has to be the last character. -/
def contentUnits? (q : Char) : List Char → Option (List ℕ)
  | [] => none
  | c :: rest =>
    if c = q then if rest.isEmpty then some [] else none
    else if c = '\\' then
      match escape? rest with
      | none => none
      | some (units, n) => (contentUnits? q (rest.drop n)).map (units ++ ·)
    else if c = '\n' ∨ c = '\r' then none
    else (contentUnits? q rest).map (codeUnits c.toNat ++ ·)
termination_by cs => cs.length
decreasing_by all_goals simp only [List.length_drop, List.length_cons]; omega

/-- The value of a string literal of a module, in UTF-16 units, if the text is one. -/
def literalUnits? : List Char → Option (List ℕ)
  | '"' :: rest => contentUnits? '"' rest
  | '\'' :: rest => contentUnits? '\'' rest
  | _ => none

/-! ## Pieces with a value -/

/-- The ways to write units between the quotes `q` that the rules of JSON know: a character as
itself, with a backslash before the quote or the letter of an escape, and a unit by its number. -/
inductive WritesUnits (q : Char) : List Char → List ℕ → Prop
  /-- Nothing. -/
  | nil : WritesUnits q [] []
  /-- A character as itself. -/
  | plain {c : Char} {cs : List Char} {units : List ℕ} (hq : c ≠ q) (hb : c ≠ '\\')
      (hc : ¬c.toNat < 32) (h : WritesUnits q cs units) :
      WritesUnits q (c :: cs) (codeUnits c.toNat ++ units)
  /-- The quote. -/
  | quote {cs : List Char} {units : List ℕ} (h : WritesUnits q cs units) :
      WritesUnits q ('\\' :: q :: cs) (codeUnits q.toNat ++ units)
  /-- A character by a letter. -/
  | letter {e c : Char} {cs : List Char} {units : List ℕ} (he : e ≠ '"')
      (hs : Json.simpleEscape? e = some c) (h : WritesUnits q cs units) :
      WritesUnits q ('\\' :: e :: cs) (codeUnits c.toNat ++ units)
  /-- A unit by its number. -/
  | code {a b c d : Char} {n : ℕ} {cs : List Char} {units : List ℕ}
      (hn : Json.hex4? a b c d = some n) (h : WritesUnits q cs units) :
      WritesUnits q ('\\' :: 'u' :: a :: b :: c :: d :: cs) (n :: units)

variable {q : Char} {cs rest : List Char} {units : List ℕ}

/-- Only an escape by number writes the second half of a surrogate pair. -/
theorem WritesUnits.exists_code {m : ℕ} (h : WritesUnits q cs units) (hhead : units.head? = some m)
    (hm : Text.isLowSurrogate m = true) :
    ∃ a b c d more, cs = '\\' :: 'u' :: a :: b :: c :: d :: more ∧
      Json.hex4? a b c d = some m := by
  -- The units of a whole character never begin with a low surrogate.
  have hchar : ∀ (c : Char) (units : List ℕ), (codeUnits c.toNat ++ units).head? ≠ some m := by
    intro c units heq
    have hne : codeUnits c.toNat ≠ [] := by
      unfold codeUnits
      split_ifs <;> exact List.cons_ne_nil _ _
    rw [List.head?_append_of_ne_nil _ hne] at heq
    rw [Text.isLowSurrogate_head c heq] at hm
    cases hm
  cases h with
  | nil => cases hhead
  | plain => exact absurd hhead (hchar _ _)
  | quote => exact absurd hhead (hchar _ _)
  | letter => exact absurd hhead (hchar _ _)
  | @code a b c d n more _ hn =>
    obtain rfl : n = m := Option.some.inj hhead
    exact ⟨a, b, c, d, more, rfl, hn⟩

/-! ## Reading between double quotes -/

/-- A text is read behind what is `done`: it consists of pieces up to a closing quote, and if their
units are a text, then it is this text that is read. -/
def ReadsAs (done cs : List Char) (r : Json.Reading (List Char)) : Prop :=
  ∃ body units, cs = body ++ '"' :: r.rest ∧ WritesUnits '"' body units ∧
    ∀ text, Text.ofUnits16? units = some text → r.value = done.reverse ++ text

section ReadsAs

variable {done : List Char} {r : Json.Reading (List Char)} {a b c d e : Char} {n : ℕ}

/-- The units of a character in front are read as the character, and the rest behind it. -/
theorem reverse_append_of_codeUnits
    (h : ∀ text, Text.ofUnits16? units = some text → r.value = (c :: done).reverse ++ text)
    {text : List Char} (htext : Text.ofUnits16? (codeUnits c.toNat ++ units) = some text) :
    r.value = done.reverse ++ text := by
  rw [Text.ofUnits16?_codeUnits] at htext
  obtain ⟨more, hmore, rfl⟩ := Option.map_eq_some_iff.mp htext
  rw [h more hmore, List.reverse_cons, List.append_assoc, List.singleton_append]

/-- A character that stands for itself may stand in front of what is read. -/
theorem ReadsAs.plain (hq : c ≠ '"') (hb : c ≠ '\\') (hc : ¬c.toNat < 32)
    (h : ReadsAs (c :: done) cs r) : ReadsAs done (c :: cs) r := by
  obtain ⟨body, units, rfl, hbody, hvalue⟩ := h
  exact ⟨c :: body, _, rfl, .plain hq hb hc hbody, fun _ => reverse_append_of_codeUnits hvalue⟩

/-- An escape by a letter that `simpleEscape?` knows may stand in front of what is read. -/
theorem ReadsAs.letter (hs : Json.simpleEscape? e = some c) (h : ReadsAs (c :: done) cs r) :
    ReadsAs done ('\\' :: e :: cs) r := by
  obtain ⟨body, units, rfl, hbody, hvalue⟩ := h
  have hpiece : WritesUnits '"' ('\\' :: e :: body) (codeUnits c.toNat ++ units) := by
    by_cases he : e = '"'
    · subst he
      cases hs
      exact .quote hbody
    · exact .letter he hs hbody
  exact ⟨'\\' :: e :: body, _, rfl, hpiece, fun _ => reverse_append_of_codeUnits hvalue⟩

/-- An escape by number that makes no pair with what follows may stand in front of what is read. -/
theorem ReadsAs.code (hn : Json.hex4? a b c d = some n)
    (halone : Text.isHighSurrogate n = true → ∀ a b c d next more m,
      cs = '\\' :: 'u' :: a :: b :: c :: d :: next :: more → Json.hex4? a b c d = some m →
        Text.isLowSurrogate m = false)
    (h : ReadsAs (Json.charOfCode n :: done) cs r) :
    ReadsAs done ('\\' :: 'u' :: a :: b :: c :: d :: cs) r := by
  obtain ⟨body, units, rfl, hbody, hvalue⟩ := h
  -- A low surrogate at the front of the other units would be written by an escape as well.
  have hhead : Text.isHighSurrogate n = true → ∀ m, units.head? = some m →
      Text.isLowSurrogate m = false := by
    intro hhigh m hm
    by_contra hlow
    obtain ⟨a, b, c, d, more, rfl, hm'⟩ := hbody.exists_code hm (Bool.not_eq_false _ ▸ hlow)
    obtain ⟨next, tail, htail⟩ := List.exists_cons_of_ne_nil (l := more ++ '"' :: r.rest) (by simp)
    refine hlow (halone hhigh a b c d next tail m ?_ hm')
    rw [← htail]
    rfl
  refine ⟨'\\' :: 'u' :: a :: b :: c :: d :: body, n :: units, rfl, .code hn hbody,
    fun text htext => ?_⟩
  rw [Text.ofUnits16?_cons hhead] at htext
  split_ifs at htext with hvalid
  obtain ⟨more, hmore, rfl⟩ := Option.map_eq_some_iff.mp htext
  have hcode : Json.charOfCode n = Char.ofNat n := by
    rw [Json.charOfCode, if_neg]
    rcases hvalid with hlow | ⟨hhigh, -⟩ <;> omega
  rw [hvalue more hmore, hcode, List.reverse_cons, List.append_assoc, List.singleton_append]

/-- Two escapes by number that make a pair may stand in front of what is read. -/
theorem ReadsAs.pair {a' b' c' d' : Char} {m : ℕ} (hn : Json.hex4? a b c d = some n)
    (hm : Json.hex4? a' b' c' d' = some m) (hhigh : Text.isHighSurrogate n = true)
    (hlow : Text.isLowSurrogate m = true)
    (h : ReadsAs (Json.charOfCode (Text.joinSurrogates n m) :: done) cs r) :
    ReadsAs done
      ('\\' :: 'u' :: a :: b :: c :: d :: '\\' :: 'u' :: a' :: b' :: c' :: d' :: cs) r := by
  obtain ⟨body, units, rfl, hbody, hvalue⟩ := h
  refine ⟨'\\' :: 'u' :: a :: b :: c :: d :: '\\' :: 'u' :: a' :: b' :: c' :: d' :: body,
    n :: m :: units, rfl, .code hn (.code hm hbody), fun text htext => ?_⟩
  rw [Text.ofUnits16?, hhigh, hlow, Bool.and_true, if_pos rfl] at htext
  obtain ⟨more, hmore, rfl⟩ := Option.map_eq_some_iff.mp htext
  have hcode : Json.charOfCode (Text.joinSurrogates n m)
      = Char.ofNat (Text.joinSurrogates n m) := by
    rw [Json.charOfCode, if_neg]
    unfold Text.joinSurrogates
    omega
  rw [hvalue more hmore, hcode, List.reverse_cons, List.append_assoc, List.singleton_append]

end ReadsAs

/-- Whatever `readString` reads between double quotes consists of pieces with the units of the
text. -/
theorem readsAs_of_readString {start position : ℕ} {done : List Char}
    {r : Json.Reading (List Char)} (h : Json.readString start position done cs = .ok r) :
    ReadsAs done cs r := by
  -- The cases are those of the reader. In those that remain a piece is taken: the end, a pair, an
  -- escape by number with no partner behind it (three times), a letter, or a character.
  fun_induction Json.readString start position done cs with
  | case1 => cases h
  | case2 position done rest =>
    cases h
    exact ⟨[], [], rfl, .nil, fun text htext => by cases htext; simp⟩
  | case3 => cases h
  | case4 => cases h
  | case5 => cases h
  | case6 position done a b c d n hn a' b' c' d' next more hhigh m hm hlow ih =>
    exact .pair hn hm hhigh hlow (ih h)
  | case7 position done a b c d n hn a' b' c' d' next more hhigh m hm hlow ih =>
    refine .code hn (fun _ a b c d next more m' heq hm' => ?_) (ih h)
    simp only [List.cons.injEq, true_and] at heq
    obtain ⟨rfl, rfl, rfl, rfl, -, -⟩ := heq
    rw [hm] at hm'
    cases hm'
    exact Bool.eq_false_iff.mpr hlow
  | case8 position done a b c d n hn a' b' c' d' next more hhigh ih =>
    exact .code hn (fun hhigh' => absurd hhigh' hhigh) (ih h)
  | case9 position done a b c d n hn next rest hnext ih =>
    refine .code hn (fun _ a b c d next' more m heq _ => ?_) (ih h)
    obtain ⟨rfl, rfl⟩ := List.cons.inj heq
    exact (hnext a b c d next' more rfl rfl).elim
  | case10 => cases h
  | case11 position done e rest _ _ c hs ih => exact .letter hs (ih h)
  | case12 => cases h
  | case13 => cases h
  | case14 position done c rest hq hend _ _ hb hc ih =>
    have hslash : c ≠ '\\' := by
      rintro rfl
      cases rest with
      | nil => exact hend rfl rfl
      | cons c rest => exact hb c rest rfl rfl
    exact .plain hq hslash hc (ih h)

/-! ## The contents of a token -/

/-- The contents of a string token between quotes `q`: a quote stands behind a backslash only. -/
inductive IsContents (q : Char) : List Char → Prop
  /-- Nothing. -/
  | nil : IsContents q []
  /-- A character behind a backslash. -/
  | escaped {c : Char} {cs : List Char} (h : IsContents q cs) : IsContents q ('\\' :: c :: cs)
  /-- Another character. -/
  | plain {c : Char} {cs : List Char} (hq : c ≠ q) (hb : c ≠ '\\') (h : IsContents q cs) :
      IsContents q (c :: cs)

/-- What stands between the quotes of a string as the scanner sees it are contents of a token. -/
theorem IsBody.isContents (h : IsBody q cs) : IsContents q cs := by
  induction h with
  | nil => exact .nil
  | escaped _ ih => exact .escaped ih
  | plain hq hb _ _ ih => exact .plain hq hb ih

/-- A string token of a scan is its contents between two quotes of one kind. -/
theorem exists_contents {text : List Char} {t : Token} (ht : t ∈ (scan text).tokens)
    (hkind : t.kind = .string) :
    ∃ q body, (q = '"' ∨ q = '\'') ∧ t.text = String.ofList (q :: (body ++ [q])) ∧
      IsContents q body := by
  refine forall_scanFrom (P := fun t => t.kind = .string → ∃ q body, (q = '"' ∨ q = '\'') ∧
    t.text = String.ofList (q :: (body ++ [q])) ∧ IsContents q body) ?_
    (fun t ht => absurd ht List.not_mem_nil) t ht hkind
  rintro position c rest kind n hlexeme rfl
  have hstring := (isLexeme_of_lexeme? hlexeme).2
  generalize c :: rest.take n = w at hstring
  cases hstring with
  | string hq hbody => exact ⟨_, _, hq, rfl, hbody.isContents⟩

/-! ## Single quotes -/

/-- No quote of the token's own kind stands in front of its contents. -/
theorem IsContents.head?_ne (h : IsContents q cs) (hq : q ≠ '\\') : cs.head? ≠ some q := by
  cases h with
  | nil => exact nofun
  | escaped => exact fun heq => hq (Option.some.inj heq).symm
  | plain hne => exact fun heq => hne (Option.some.inj heq)

/-- Behind a character that is no backslash the contents of a token go on. -/
theorem IsContents.tail {c : Char} (h : IsContents q (c :: cs)) (hc : c ≠ '\\') :
    IsContents q cs := by
  cases h with
  | escaped => exact absurd rfl hc
  | plain _ _ h => exact h

/-- All four characters that `Json.hex4?` reads are hexadecimal digits. -/
theorem exists_hexValue?_of_hex4? {a b c d : Char} {n : ℕ} (hn : Json.hex4? a b c d = some n) :
    ∀ x ∈ [a, b, c, d], ∃ m, Json.hexValue? x = some m := by
  simp only [Json.hex4?, Option.bind_eq_bind, Option.bind_eq_some_iff] at hn
  obtain ⟨_, ha, _, hb, _, hc, _, hd, -⟩ := hn
  intro x hx
  simp only [List.mem_cons, List.not_mem_nil, or_false] at hx
  rcases hx with rfl | rfl | rfl | rfl
  · exact ⟨_, ha⟩
  · exact ⟨_, hb⟩
  · exact ⟨_, hc⟩
  · exact ⟨_, hd⟩

/-- A hexadecimal digit in front is not changed by `requote`, which only touches quotes and
backslashes. -/
theorem eq_cons_of_requote {c : Char} (hc : ∃ n, Json.hexValue? c = some n)
    (h : requote cs = c :: rest) : ∃ more, cs = c :: more ∧ requote more = rest := by
  obtain ⟨n, hc⟩ := hc
  unfold requote at h
  -- Where `requote` changes the text, it begins with a backslash, which is no hexadecimal digit.
  split at h
  · cases h
  · cases h
    cases hc
  · cases h
    cases hc
  · cases h
    exact ⟨_, rfl, rfl⟩

/-- The four digits of an escape by number are not changed by `requote`. -/
theorem eq_digits_of_requote {a b c d : Char} {n : ℕ} (hn : Json.hex4? a b c d = some n)
    (h : requote cs = a :: b :: c :: d :: rest) :
    ∃ more, cs = a :: b :: c :: d :: more ∧ requote more = rest := by
  have hdigit := exists_hexValue?_of_hex4? hn
  obtain ⟨_, rfl, ha⟩ := eq_cons_of_requote (hdigit a (by simp)) h
  obtain ⟨_, rfl, hb⟩ := eq_cons_of_requote (hdigit b (by simp)) ha
  obtain ⟨_, rfl, hc⟩ := eq_cons_of_requote (hdigit c (by simp)) hb
  obtain ⟨more, rfl, hd⟩ := eq_cons_of_requote (hdigit d (by simp)) hc
  exact ⟨more, rfl, hd⟩

/-- The function `requote` leaves what is escaped as it is, if it is no quote. -/
theorem requote_escaped {c : Char} (hs : c ≠ '\'') (hd : c ≠ '"') (h : IsContents '\'' cs) :
    requote ('\\' :: c :: cs) = '\\' :: c :: requote cs := by
  rw [requote_backslash (by simpa using hs)]
  by_cases hb : c = '\\'
  · rw [hb, requote_backslash (h.head?_ne (by decide))]
  · rw [requote.eq_4 _ _ (fun _ hc _ => hb hc) hd]

/-- No quote of the token's own kind stands in front of what can be read. -/
theorem WritesUnits.head?_ne (h : WritesUnits q cs units) (hq : q ≠ '\\') : cs.head? ≠ some q := by
  cases h with
  | nil => exact nofun
  | plain hne => exact fun heq => hne (Option.some.inj heq)
  | _ => exact fun heq => hq (Option.some.inj heq).symm

/-- If the contents of a token between single quotes can be read once they are requoted, they
consist of the same pieces before. -/
theorem WritesUnits.of_requote {cs : List Char} {units : List ℕ} (hc : IsContents '\'' cs)
    (h : WritesUnits '"' (requote cs) units) : WritesUnits '\'' cs units := by
  -- The induction is on the length, since an escape by number is skipped with all its digits.
  induction hlen : cs.length using Nat.strong_induction_on generalizing cs units with
  | _ n ih =>
    have hshorter : ∀ ds us, ds.length < cs.length → IsContents '\'' ds →
        WritesUnits '"' (requote ds) us → WritesUnits '\'' ds us :=
      fun ds us hlt hds h => ih ds.length (hlen ▸ hlt) hds h rfl
    cases hc with
    | nil =>
      cases h
      exact .nil
    | @plain c cs hq hb hc =>
      by_cases hd : c = '"'
      · subst hd
        replace h : WritesUnits '"' ('\\' :: '"' :: requote cs) units := h
        generalize hcs : requote cs = ds at h
        cases h with
        | plain _ hslash => exact absurd rfl hslash
        | quote h =>
          exact .plain (by decide) (by decide) (by decide) (hshorter _ _ (by simp) hc (hcs ▸ h))
        | letter he => exact absurd rfl he
      · rw [requote.eq_4 _ _ (fun _ hslash _ => hb hslash) hd] at h
        generalize hcs : requote cs = ds at h
        cases h with
        | plain _ _ hcontrol h => exact .plain hq hb hcontrol (hshorter _ _ (by simp) hc (hcs ▸ h))
        | quote => exact absurd rfl hb
        | letter => exact absurd rfl hb
        | code => exact absurd rfl hb
    | @escaped c cs hc =>
      by_cases hs : c = '\''
      · subst hs
        replace h : WritesUnits '"' ('\'' :: requote cs) units := h
        generalize hcs : requote cs = ds at h
        cases h with
        | plain _ _ _ h => exact .quote (hshorter _ _ (by simp) hc (hcs ▸ h))
      by_cases hd : c = '"'
      · -- The backslash gets another one in front of the quote, which then closes the string.
        subst hd
        replace h : WritesUnits '"' ('\\' :: '\\' :: '"' :: requote cs) units := h
        generalize hcs : '"' :: requote cs = ds at h
        cases h with
        | plain _ hslash => exact absurd rfl hslash
        | letter _ _ h =>
          subst hcs
          exact absurd rfl (h.head?_ne (by decide))
      · rw [requote_escaped hs hd hc] at h
        generalize hcs : requote cs = ds at h
        cases h with
        | plain _ hslash => exact absurd rfl hslash
        | quote => exact absurd rfl hd
        | letter he hletter h => exact .letter he hletter (hshorter _ _ (by simp) hc (hcs ▸ h))
        | code hn h =>
          obtain ⟨more, rfl, hmore⟩ := eq_digits_of_requote hn hcs
          have hdigits := ne_of_hex4? hn
          have hrest := (((hc.tail (hdigits _ (by simp)).2).tail (hdigits _ (by simp)).2).tail
            (hdigits _ (by simp)).2).tail (hdigits _ (by simp)).2
          exact .code hn (hshorter _ _ (by simp; omega) hrest (hmore ▸ h))

/-! ## Pieces as a literal -/

/-- An escape by a letter that JSON knows is an escape of the module language with the same
meaning. -/
theorem escape?_of_simpleEscape? {e c : Char} (h : Json.simpleEscape? e = some c)
    (rest : List Char) : escape? (e :: rest) = some (codeUnits c.toNat, 1) := by
  unfold Json.simpleEscape? at h
  split at h
  all_goals cases h
  all_goals rfl

/-- An escape by number stands for the unit of its four digits. -/
theorem escape?_code {a b c d : Char} {n : ℕ} (hn : Json.hex4? a b c d = some n)
    (rest : List Char) : escape? ('u' :: a :: b :: c :: d :: rest) = some ([n], 5) := by
  have ha : a ≠ '\x7b' := by
    rintro rfl
    cases hn
  rw [escape?.eq_3 _ _ _ _ _ fun h => ha h, hn, Option.map_some]

/-- Pieces between quotes are a literal with their units. The induction is on `WritesUnits`. -/
theorem contentUnits?_of_writesUnits (hq : q = '"' ∨ q = '\'') (h : WritesUnits q cs units) :
    contentUnits? q (cs ++ [q]) = some units := by
  have hslash : '\\' ≠ q := by
    rcases hq with rfl | rfl <;> decide
  -- The pieces are decoded one by one, each of them by the test that recognises it.
  induction h with
  | nil =>
    rw [List.nil_append, contentUnits?, if_pos rfl]
    rfl
  | @plain c _ _ hne hb hc _ ih =>
    have hfeed : ¬(c = '\n' ∨ c = '\r') := by
      rintro (rfl | rfl) <;> exact hc (by decide)
    rw [List.cons_append, contentUnits?, if_neg hne, if_neg hb, if_neg hfeed, ih, Option.map_some]
  | @quote cs _ _ ih =>
    have hescape : escape? (q :: (cs ++ [q])) = some (codeUnits q.toNat, 1) := by
      rcases hq with rfl | rfl <;> rfl
    rw [List.cons_append, List.cons_append, contentUnits?, if_neg hslash, if_pos rfl, hescape]
    show (contentUnits? q (cs ++ [q])).map _ = _
    rw [ih, Option.map_some]
  | @letter e _ cs _ he hs _ ih =>
    rw [List.cons_append, List.cons_append, contentUnits?, if_neg hslash, if_pos rfl,
      escape?_of_simpleEscape? hs]
    show (contentUnits? q (cs ++ [q])).map _ = _
    rw [ih, Option.map_some]
  | @code a b c d n cs _ hn _ ih =>
    show contentUnits? q ('\\' :: 'u' :: a :: b :: c :: d :: (cs ++ [q])) = _
    rw [contentUnits?, if_neg hslash, if_pos rfl, escape?_code hn]
    show (contentUnits? q (cs ++ [q])).map _ = _
    rw [ih, Option.map_some]
    rfl

/-! ## String tokens -/

/-- Up to a quote at the end not everything is space, so that `Json.skipSpace` stops before it. -/
theorem skipSpace_concat (position : ℕ) (cs : List Char) :
    (Json.skipSpace position (cs ++ ['"'])).2.isEmpty = false := by
  induction cs generalizing position with
  | nil => rfl
  | cons c cs ih =>
    rw [List.cons_append, Json.skipSpace]
    split_ifs
    · exact ih (position + 1)
    · rfl

/-- If nothing but space is left behind what is read, everything up to the quote at the end was
read. -/
theorem writesUnits_of_end {r : Json.Reading (List Char)}
    (h : Json.readString 0 1 [] (cs ++ ['"']) = .ok r)
    (hend : (Json.skipSpace 0 r.rest).2.isEmpty = true) :
    ∃ units, WritesUnits '"' cs units ∧
      ∀ text, Text.ofUnits16? units = some text → r.value = text := by
  obtain ⟨body, units, hcs, hbody, hvalue⟩ := readsAs_of_readString h
  have hrest : r.rest = [] := by
    rcases List.eq_nil_or_concat' r.rest with hnil | ⟨more, last, hmore⟩
    · exact hnil
    · rw [hmore, ← List.cons_append, ← List.append_assoc] at hcs
      have hlast : ['"'] = [last] := (List.append_inj' hcs rfl).2
      rw [hmore, ← (List.cons.inj hlast).1, skipSpace_concat] at hend
      cases hend
  rw [hrest] at hcs
  exact ⟨units, (List.append_inj' hcs rfl).1 ▸ hbody, hvalue⟩

/-- A token is refused at its place, or what stands between its quotes is read to the end, requoted
if they are single. -/
theorem decodeString_cases {t : Token} {body : List Char} (hq : q = '"' ∨ q = '\'')
    (ht : t.text = String.ofList (q :: (body ++ [q]))) :
    (∃ cause, decodeString t = .error ⟨.badString t.text cause, some t.position⟩) ∨
    ∃ r, decodeString t = .ok (String.ofList r.value) ∧
      Json.readString 0 1 [] ((if q = '\'' then requote body else body) ++ ['"']) = .ok r ∧
      (Json.skipSpace 0 r.rest).2.isEmpty = true := by
  have hdecode : decodeString t =
      (Json.readString 0 1 [] ((if q = '\'' then requote body else body) ++ ['"'])).mapError
        (fun e => ⟨.badString t.text e.cause, some t.position⟩) >>= fun r =>
          if (Json.skipSpace 0 r.rest).2.isEmpty then .ok (String.ofList r.value)
          else .error ⟨.badString t.text .extraData, some t.position⟩ := by
    have hlist : t.text.toList = q :: (body ++ [q]) := by rw [ht, String.toList_ofList]
    unfold decodeString
    rw [hlist]
    rcases hq with rfl | rfl
    · rw [if_neg (by decide)]
      split
      · rename_i hsingle
        cases hsingle
      · dsimp only
        cases Json.readString 0 1 [] (body ++ ['"']) <;> rfl
    · rw [if_pos rfl]
      simp only [List.dropLast_concat]
      cases Json.readString 0 1 [] (requote body ++ ['"']) <;> rfl
  -- What is left is one reading and one test, that nothing but space stands behind the end.
  rw [hdecode]
  cases hread : Json.readString 0 1 [] ((if q = '\'' then requote body else body) ++ ['"']) with
  | error e => exact .inl ⟨e.cause, rfl⟩
  | ok r =>
    rw [Except.mapError, Outcome.ok_bind]
    cases hend : (Json.skipSpace 0 r.rest).2.isEmpty with
    | false => exact .inl ⟨.extraData, rfl⟩
    | true => exact .inr ⟨r, rfl, rfl, hend⟩

/-- A string token that is decoded is a literal of which the value, if it is a text at all, is the
text that the token is decoded to. -/
theorem literalUnits?_of_decodeString {t : Token} {body : List Char} {s : String}
    (hq : q = '"' ∨ q = '\'') (ht : t.text = String.ofList (q :: (body ++ [q])))
    (hbody : IsContents q body) (h : decodeString t = .ok s) :
    ∃ units, literalUnits? t.text.toList = some units ∧
      ∀ text, units = units16 text → s = String.ofList text := by
  rcases decodeString_cases hq ht with ⟨cause, herror⟩ | ⟨r, hok, hread, hend⟩
  · rw [herror] at h
    cases h
  obtain ⟨units, hwrites, hvalue⟩ := writesUnits_of_end hread hend
  -- Requoting does not change the units that the pieces write.
  have hpieces : WritesUnits q body units := by
    rcases hq with rfl | rfl
    · exact hwrites
    · exact .of_requote hbody hwrites
  have hliteral : literalUnits? t.text.toList = some units := by
    rw [ht, String.toList_ofList]
    rcases hq with rfl | rfl
    · exact contentUnits?_of_writesUnits (.inl rfl) hpieces
    · exact contentUnits?_of_writesUnits (.inr rfl) hpieces
  refine ⟨units, hliteral, ?_⟩
  rintro text rfl
  rw [hok] at h
  rw [← hvalue text (Text.ofUnits16?_units16 text)]
  exact (Except.ok.inj h).symm

/-! ## Quoted texts between quotes of either kind -/

/-- The contents of a literal between double quotes as those of one between single quotes: double
quotes lose their backslash and single quotes get one. -/
def requoteSingle : List Char → List Char
  | [] => []
  | '\\' :: '"' :: rest => '"' :: requoteSingle rest
  | '\\' :: c :: rest => '\\' :: c :: requoteSingle rest
  | '\'' :: rest => '\\' :: '\'' :: requoteSingle rest
  | c :: rest => c :: requoteSingle rest

/-- A literal between double quotes as one between single quotes, by `requoteSingle` of its
contents. -/
def singleQuoted (literal : String) : String :=
  match literal.toList with
  | '"' :: rest => String.ofList ('\'' :: (requoteSingle rest.dropLast ++ ['\'']))
  | _ => literal

/-- The function `requoteSingle` leaves characters as they are that are neither single quotes nor
backslashes. -/
theorem requoteSingle_append (h : ∀ x ∈ cs, x ≠ '\'' ∧ x ≠ '\\') :
    requoteSingle (cs ++ rest) = cs ++ requoteSingle rest := by
  induction cs with
  | nil => rfl
  | cons c cs ih =>
    obtain ⟨hs, hb⟩ := h c List.mem_cons_self
    have hrest := ih fun x hx => h x (List.mem_cons_of_mem c hx)
    rw [List.cons_append, requoteSingle.eq_5 _ _ (fun _ hc _ => hb hc) (fun _ _ hc _ => hb hc) hs,
      hrest]
    rfl

/-- The function `requoteSingle` leaves what is escaped as it is, if it is no double quote. -/
theorem requoteSingle_escaped {c : Char} (hd : c ≠ '"') :
    requoteSingle ('\\' :: c :: rest) = '\\' :: c :: requoteSingle rest := by
  rw [requoteSingle.eq_3 _ _ hd]

/-- The digits of an escape by number are no single quotes and no backslashes. -/
theorem digits_ne {a b c d : Char} {n : ℕ} (hn : Json.hex4? a b c d = some n) :
    ∀ x ∈ [a, b, c, d], x ≠ '\'' ∧ x ≠ '\\' := by
  intro x hx
  obtain ⟨m, hm⟩ := exists_hexValue?_of_hex4? hn x hx
  refine ⟨?_, (ne_of_hexValue? hm).2⟩
  rintro rfl
  cases hm

/-- What writes a character between double quotes writes it between single quotes as well once it is
requoted. -/
theorem requoteSingle_writes {piece : List Char} {c : Char} (h : Writes '"' piece c) :
    ∃ piece', requoteSingle (piece ++ rest) = piece' ++ requoteSingle rest ∧
      Writes '\'' piece' c := by
  -- Only the two quotes change their form: the single one is escaped, the double one no longer is.
  cases h with
  | plain hq hb hc =>
    by_cases hs : c = '\''
    · subst hs
      exact ⟨_, rfl, .quote⟩
    · refine ⟨[c], requoteSingle_append fun x hx => ?_, .plain hs hb hc⟩
      cases List.mem_singleton.mp hx
      exact ⟨hs, hb⟩
  | quote => exact ⟨_, rfl, .plain (by decide) (by decide) (by decide)⟩
  | @letter e _ he h => exact ⟨['\\', e], requoteSingle_escaped he, .letter he h⟩
  | @code a b c d n h hn =>
    refine ⟨['\\', 'u', a, b, c, d], ?_, .code h hn⟩
    show requoteSingle ('\\' :: 'u' :: ([a, b, c, d] ++ rest)) = _
    rw [requoteSingle_escaped (by decide), requoteSingle_append (digits_ne h)]
    rfl
  | @pair a b c d a' b' c' d' high low h h' hhigh hlow =>
    refine ⟨['\\', 'u', a, b, c, d, '\\', 'u', a', b', c', d'], ?_, .pair h h' hhigh hlow⟩
    show requoteSingle ('\\' :: 'u' :: ([a, b, c, d] ++
      ('\\' :: 'u' :: ([a', b', c', d'] ++ rest)))) = _
    rw [requoteSingle_escaped (by decide), requoteSingle_append (digits_ne h),
      requoteSingle_escaped (by decide), requoteSingle_append (digits_ne h')]
    rfl

/-- What writes a text between double quotes writes it between single quotes as well once it is
requoted. -/
theorem WritesAll.requoteSingle {ds : List Char} (h : WritesAll '"' cs ds) :
    WritesAll '\'' (requoteSingle cs) ds := by
  induction h with
  | nil => exact .nil
  | cons h _ ih =>
    obtain ⟨piece', heq, hpiece'⟩ := requoteSingle_writes h
    rw [heq]
    exact .cons hpiece' ih

/-- A quoted text that is put between single quotes stands for the same text. -/
theorem isLiteral_singleQuoted (s : String) : IsLiteral s (singleQuoted (Json.quote s)) := by
  have hwrites : WritesAll '"' (s.toList.flatMap Json.escapedChar) s.toList := by
    induction s.toList with
    | nil => exact .nil
    | cons c cs ih => exact .cons (writes_escapedChar c) ih
  have hsingle : singleQuoted (Json.quote s) = String.ofList
      ('\'' :: (requoteSingle (s.toList.flatMap Json.escapedChar) ++ ['\''])) := by
    unfold singleQuoted Json.quote
    simp only [String.toList_ofList, List.dropLast_concat]
  rw [hsingle]
  exact .intro (.inr rfl) hwrites.requoteSingle

/-- String literals are not misread. A string token of any text is refused at its place, or it is a
literal of the module language that is decoded to its value, unless this is the value of no text.
And every text is decoded of its literals between double and between single quotes. -/
theorem decodeString_spec :
    (∀ (text : List Char) (t : Token), t ∈ (scan text).tokens → t.kind = .string →
      (∃ cause, decodeString t = .error ⟨.badString t.text cause, some t.position⟩) ∨
      ∃ s units, decodeString t = .ok s ∧ literalUnits? t.text.toList = some units ∧
        ((∃ cs, units = units16 cs) → units = units16 s.toList)) ∧
    ∀ (s : String) (position : ℕ),
      decodeString ⟨.string, Json.quote s, position⟩ = .ok s ∧
        decodeString ⟨.string, singleQuoted (Json.quote s), position⟩ = .ok s := by
  refine ⟨fun text t ht hkind => ?_, fun s position =>
    ⟨decodeString_quote s position, (isLiteral_singleQuoted s).decodeString_eq position⟩⟩
  obtain ⟨q, body, hq, htext, hbody⟩ := exists_contents ht hkind
  rcases decodeString_cases hq htext with hrefused | ⟨r, hok, -⟩
  · exact .inl hrefused
  · obtain ⟨units, hunits, hvalue⟩ := literalUnits?_of_decodeString hq htext hbody hok
    refine .inr ⟨_, units, hok, hunits, ?_⟩
    rintro ⟨cs, hcs⟩
    rw [hvalue cs hcs, String.toList_ofList]
    exact hcs

/-- A token between single quotes with quotes of both kinds, one of them escaped. -/
def quotesToken : Token := ⟨.string, String.ofList ['\'', '"', '\\', '\'', '\''], 0⟩

/-- An instance of `decodeString_spec`: the token `quotesToken` is decoded to the two quotes, and
this is its value. -/
theorem decodeString_spec_quotesToken :
    quotesToken ∈ (scan ['\'', '"', '\\', '\'', '\'']).tokens ∧ quotesToken.kind = .string ∧
    decodeString quotesToken = .ok "\"'" ∧
    ∃ s units, decodeString quotesToken = .ok s ∧
      literalUnits? quotesToken.text.toList = some units ∧
      ((∃ cs, units = units16 cs) → units = units16 s.toList) := by
  -- The lexeme is found first, since the scan is not by structural recursion and does not compute.
  have hlexeme : lexeme? '\'' ['"', '\\', '\'', '\''] = some (.token .string, 4) := rfl
  have hmem : quotesToken ∈ (scan ['\'', '"', '\\', '\'', '\'']).tokens := by
    unfold scan scanFrom
    rw [hlexeme]
    dsimp only
    rw [List.drop_of_length_le (by decide)]
    unfold scanFrom
    exact List.mem_singleton_self _
  have hdecode : decodeString quotesToken = .ok "\"'" := by
    unfold decodeString quotesToken
    simp only [String.toList_ofList]
    rfl
  refine ⟨hmem, rfl, hdecode, ?_⟩
  rcases decodeString_spec.1 _ _ hmem rfl with ⟨cause, herror⟩ | hvalue
  · rw [hdecode] at herror
    cases herror
  · exact hvalue

end Source

end SchemaForge
