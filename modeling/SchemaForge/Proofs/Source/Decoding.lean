import SchemaForge.Proofs.Source.Lexing
import SchemaForge.Source.Expression

/-!
# What tokens stand for

A quoted text is decoded to the text (`decodeString_quote`), the text of an integer to the integer
and the text of a finite binary64 number to that number (`decodeNumber_intText`,
`decodeNumber_text`).
-/

namespace SchemaForge.Source

/-! ## Quoted texts -/

section Quoted

variable {start position : ℕ} {done cs rest : List Char} {c : Char}

/-- The function `Json.hexValue?` reads the digit of a value below sixteen as this value, in either
case of letters that is written. -/
theorem hexValue?_hexDigit {d : ℕ} (h : d < 16) : Json.hexValue? (Text.hexDigit d) = some d := by
  interval_cases d <;> rfl

/-- Four hexadecimal digits stand for the number below `2 ^ 16` that they were made of. -/
theorem hex4?_hexDigit {n : ℕ} (h : n < 65536) :
    Json.hex4? (Text.hexDigit (n / 16 / 16 / 16 % 16)) (Text.hexDigit (n / 16 / 16 % 16))
      (Text.hexDigit (n / 16 % 16)) (Text.hexDigit (n % 16)) = some n := by
  rw [Json.hex4?, hexValue?_hexDigit (Nat.mod_lt _ (by decide)),
    hexValue?_hexDigit (Nat.mod_lt _ (by decide)), hexValue?_hexDigit (Nat.mod_lt _ (by decide)),
    hexValue?_hexDigit (Nat.mod_lt _ (by decide))]
  show some _ = some n
  congr 1
  omega

/-- An escape by number that is no first half of a pair is read as its character. -/
theorem readString_numericEscape {a b c d next : Char} {n : ℕ} (h : Json.hex4? a b c d = some n)
    (hn : Text.isHighSurrogate n = false) :
    Json.readString start position done ('\\' :: 'u' :: a :: b :: c :: d :: next :: rest)
      = Json.readString start (position + 6) (Json.charOfCode n :: done) (next :: rest) := by
  conv_lhs => unfold Json.readString
  simp only [h]
  split
  · rw [hn]
    rfl
  · rfl

/-- An escape by a letter is read by `Json.readString` as the character that `simpleEscape?` has for
the letter. -/
theorem readString_simpleEscape {e : Char} (hu : c ≠ 'u') (h : Json.simpleEscape? c = some e) :
    Json.readString start position done ('\\' :: c :: rest)
      = Json.readString start (position + 2) (e :: done) rest := by
  conv_lhs => unfold Json.readString
  split
  all_goals rename_i heq
  all_goals simp only [List.cons.injEq, reduceCtorEq, and_false] at heq
  · exact absurd heq.1 (by decide)
  · exact absurd heq.2.1 hu
  · exact absurd heq.2.1 hu
  · obtain ⟨-, rfl, rfl⟩ := heq
    rw [h]
  · rename_i hne
    exact (hne c rest heq.1.symm heq.2.symm).elim

/-- A character that is no quotation mark, no backslash and no control character is read as
itself. -/
theorem readString_cons (hq : c ≠ '"') (hb : c ≠ '\\') (hc : ¬c.toNat < 32) :
    Json.readString start position done (c :: rest)
      = Json.readString start (position + 1) (c :: done) rest := by
  conv_lhs => unfold Json.readString
  split
  all_goals rename_i heq
  all_goals simp only [List.cons.injEq, reduceCtorEq] at heq
  · exact absurd heq.1 hq
  · exact absurd heq.1 hb
  · exact absurd heq.1 hb
  · exact absurd heq.1 hb
  · exact absurd heq.1 hb
  · obtain ⟨rfl, rfl⟩ := heq
    rw [if_neg hc]

/-- Two escapes by number that make a surrogate pair are read as one character. -/
theorem readString_pair {a b c d a' b' c' d' next : Char} {high low : ℕ}
    (h : Json.hex4? a b c d = some high) (h' : Json.hex4? a' b' c' d' = some low)
    (hhigh : Text.isHighSurrogate high = true) (hlow : Text.isLowSurrogate low = true) :
    Json.readString start position done
        ('\\' :: 'u' :: a :: b :: c :: d :: '\\' :: 'u' :: a' :: b' :: c' :: d' :: next :: rest)
      = Json.readString start (position + 12)
          (Json.charOfCode (Text.joinSurrogates high low) :: done) (next :: rest) := by
  conv_lhs => unfold Json.readString
  simp only [h, h', hhigh, hlow, if_true]

/-- The ways to write a character between the quotes `q`: as itself, with a backslash before the
quote or the letter of an escape, and by one number or by two that make a surrogate pair. -/
inductive Writes (q : Char) : List Char → Char → Prop
  /-- As itself. -/
  | plain {c : Char} (hq : c ≠ q) (hb : c ≠ '\\') (hc : ¬c.toNat < 32) : Writes q [c] c
  /-- The quote. -/
  | quote : Writes q ['\\', q] q
  /-- By a letter. -/
  | letter {e c : Char} (he : e ≠ '"') (h : Json.simpleEscape? e = some c) : Writes q ['\\', e] c
  /-- By its number. -/
  | code {a b c d : Char} {n : ℕ} (h : Json.hex4? a b c d = some n)
      (hn : ¬(0xd800 ≤ n ∧ n ≤ 0xdfff)) : Writes q ['\\', 'u', a, b, c, d] (Char.ofNat n)
  /-- By a pair of numbers. -/
  | pair {a b c d a' b' c' d' : Char} {high low : ℕ} (h : Json.hex4? a b c d = some high)
      (h' : Json.hex4? a' b' c' d' = some low) (hhigh : Text.isHighSurrogate high = true)
      (hlow : Text.isLowSurrogate low = true) :
      Writes q ['\\', 'u', a, b, c, d, '\\', 'u', a', b', c', d']
        (Char.ofNat (Text.joinSurrogates high low))

/-- The ways to write a text between the quotes `q`, character by character. -/
inductive WritesAll (q : Char) : List Char → List Char → Prop
  /-- Nothing. -/
  | nil : WritesAll q [] []
  /-- A character in front. -/
  | cons {piece cs ds : List Char} {c : Char} (h : Writes q piece c) (hs : WritesAll q cs ds) :
      WritesAll q (piece ++ cs) (c :: ds)

/-- A string token that stands for the text `s`, between quotes of one kind or the other. -/
inductive IsLiteral (s : String) : String → Prop
  /-- Between the quotes `q`. -/
  | intro {q : Char} {cs : List Char} (hq : q = '"' ∨ q = '\'') (h : WritesAll q cs s.toList) :
      IsLiteral s (String.ofList (q :: (cs ++ [q])))

/-- What `Json.escapedChar` writes for a character is one of the ways to write it. -/
theorem writes_escapedChar (c : Char) : Writes '"' (Json.escapedChar c) c := by
  unfold Json.escapedChar
  split_ifs with hq hb hn hr ht h8 h12 h32
  · exact hq ▸ .quote
  · exact .letter (by decide) (by rw [hb]; rfl)
  · exact .letter (by decide) (by rw [hn]; rfl)
  · exact .letter (by decide) (by rw [hr]; rfl)
  · exact .letter (by decide) (by rw [ht]; rfl)
  · exact .letter (by decide) (by rw [← Char.ofNat_toNat c, h8]; rfl)
  · exact .letter (by decide) (by rw [← Char.ofNat_toNat c, h12]; rfl)
  · have hcode := Writes.code (q := '"') (hex4?_hexDigit (by omega : c.toNat < 65536)) (by omega)
    rwa [Char.ofNat_toNat] at hcode
  · exact .plain hq hb h32

/-- What `Json.quote` writes for a text is a literal of the text. -/
theorem isLiteral_quote (s : String) : IsLiteral s (Json.quote s) := by
  refine .intro (.inl rfl) ?_
  induction s.toList with
  | nil => exact .nil
  | cons c cs ih => exact .cons (writes_escapedChar c) ih

/-- Whatever `Writes` a character between double quotes is read as this character by
`Json.readString`. -/
theorem readString_writes {piece : List Char} (h : Writes '"' piece c) (start position : ℕ)
    (done : List Char) (next : Char) (rest : List Char) :
    ∃ position', Json.readString start position done (piece ++ next :: rest)
      = Json.readString start position' (c :: done) (next :: rest) := by
  cases h with
  | plain hq hb hc => exact ⟨_, readString_cons hq hb hc⟩
  | quote => exact ⟨_, readString_simpleEscape (by decide) rfl⟩
  | @letter e _ he h =>
    refine ⟨_, readString_simpleEscape ?_ h⟩
    rintro rfl
    cases h
  | @code _ _ _ _ n h hn =>
    -- No code of a character is that of a surrogate.
    have hhigh : Text.isHighSurrogate n = false := by
      rw [Text.isHighSurrogate, ← Bool.not_eq_true, Bool.and_eq_true, decide_eq_true_iff,
        decide_eq_true_iff]
      omega
    refine ⟨position + 6, (readString_numericEscape h hhigh).trans ?_⟩
    rw [Json.charOfCode, if_neg hn]
  | @pair _ _ _ _ _ _ _ _ high low h h' hhigh hlow =>
    have hcode : ¬(0xd800 ≤ Text.joinSurrogates high low
        ∧ Text.joinSurrogates high low ≤ 0xdfff) := by
      unfold Text.joinSurrogates
      omega
    refine ⟨position + 12, (readString_pair h h' hhigh hlow).trans ?_⟩
    rw [Json.charOfCode, if_neg hcode]

/-- Whatever writes a text is read up to the quotation mark behind it. The induction is on
`WritesAll`. -/
theorem readString_writesAll {ds : List Char} (h : WritesAll '"' cs ds) (start position : ℕ)
    (done : List Char) : ∃ position', Json.readString start position done (cs ++ ['"'])
      = .ok ⟨done.reverse ++ ds, position', []⟩ := by
  induction h generalizing position done with
  | nil => exact ⟨position + 1, by rw [List.append_nil]; rfl⟩
  | @cons piece cs ds c h _ ih =>
    obtain ⟨next, rest, hnext⟩ := List.exists_cons_of_ne_nil (l := cs ++ ['"']) (by simp)
    obtain ⟨p, hp⟩ := readString_writes h start position done next rest
    obtain ⟨p', hp'⟩ := ih p (c :: done)
    refine ⟨p', ?_⟩
    rw [List.append_assoc, hnext, hp, ← hnext, hp', List.reverse_cons, List.append_assoc,
      List.singleton_append]

/-! ## Single quotes -/

/-- A character that is a hexadecimal digit is neither a quote nor a backslash, so that requoting
leaves it. -/
theorem ne_of_hexValue? {n : ℕ} (h : Json.hexValue? c = some n) : c ≠ '"' ∧ c ≠ '\\' := by
  constructor
  · rintro rfl
    cases h
  · rintro rfl
    cases h

/-- The digits of an escape by number are no quotes and no backslashes. -/
theorem ne_of_hex4? {a b c d : Char} {n : ℕ} (h : Json.hex4? a b c d = some n) :
    ∀ x ∈ [a, b, c, d], x ≠ '"' ∧ x ≠ '\\' := by
  simp only [Json.hex4?, Option.bind_eq_bind, Option.bind_eq_some_iff] at h
  obtain ⟨_, ha, _, hb, _, hc, _, hd, -⟩ := h
  intro x hx
  simp only [List.mem_cons, List.not_mem_nil, or_false] at hx
  rcases hx with rfl | rfl | rfl | rfl
  · exact ne_of_hexValue? ha
  · exact ne_of_hexValue? hb
  · exact ne_of_hexValue? hc
  · exact ne_of_hexValue? hd

/-- The function `requote` leaves characters as they are that are neither double quotes nor
backslashes. -/
theorem requote_append (h : ∀ x ∈ cs, x ≠ '"' ∧ x ≠ '\\') :
    requote (cs ++ rest) = cs ++ requote rest := by
  induction cs with
  | nil => rfl
  | cons c cs ih =>
    obtain ⟨hq, hb⟩ := h c List.mem_cons_self
    have hrest := ih fun x hx => h x (List.mem_cons_of_mem c hx)
    rw [List.cons_append, requote, hrest]
    · rfl
    · exact fun _ hc _ => hb hc
    · exact hq

/-- The function `requote` leaves a backslash as it is unless a single quote follows. -/
theorem requote_backslash (h : rest.head? ≠ some '\'') :
    requote ('\\' :: rest) = '\\' :: requote rest := by
  rw [requote]
  · rintro more - rfl
    exact h rfl
  · decide

/-- What writes a character between single quotes writes it between double quotes as well once it is
requoted. -/
theorem requote_writes {piece : List Char} (h : Writes '\'' piece c)
    (hrest : rest.head? ≠ some '\'') :
    ∃ piece', requote (piece ++ rest) = piece' ++ requote rest ∧ Writes '"' piece' c := by
  -- Only a double quote gets a backslash, and only that of a single quote is taken away.
  cases h with
  | plain hq hb hc =>
    by_cases hd : c = '"'
    · subst hd
      exact ⟨_, rfl, .quote⟩
    · refine ⟨[c], requote_append fun x hx => ?_, .plain hd hb hc⟩
      cases List.mem_singleton.mp hx
      exact ⟨hd, hb⟩
  | quote => exact ⟨_, rfl, .plain (by decide) (by decide) (by decide)⟩
  | @letter e _ he h =>
    have hsingle : e ≠ '\'' := by
      rintro rfl
      cases h
    refine ⟨['\\', e], ?_, .letter he h⟩
    show requote ('\\' :: ([e] ++ rest)) = _
    rw [requote_backslash (by simpa using hsingle)]
    by_cases hb : e = '\\'
    · subst hb
      show _ :: requote ('\\' :: rest) = _
      rw [requote_backslash hrest]
      rfl
    · rw [requote_append fun x hx => by
        cases List.mem_singleton.mp hx
        exact ⟨he, hb⟩]
      rfl
  | @code a b c d n h hn =>
    refine ⟨['\\', 'u', a, b, c, d], ?_, .code h hn⟩
    show requote ('\\' :: (['u'] ++ ([a, b, c, d] ++ rest))) = _
    rw [requote_backslash (by simp), requote_append (by simp), requote_append (ne_of_hex4? h)]
    rfl
  | @pair a b c d a' b' c' d' high low h h' hhigh hlow =>
    refine ⟨['\\', 'u', a, b, c, d, '\\', 'u', a', b', c', d'], ?_, .pair h h' hhigh hlow⟩
    show requote ('\\' :: (['u'] ++ ([a, b, c, d] ++
      ('\\' :: (['u'] ++ ([a', b', c', d'] ++ rest)))))) = _
    rw [requote_backslash (by simp), requote_append (by simp), requote_append (ne_of_hex4? h),
      requote_backslash (by simp), requote_append (by simp), requote_append (ne_of_hex4? h')]
    rfl

/-- What writes a text between quotes does not begin with the quote, so that a backslash in front of
it is no escape of it. -/
theorem WritesAll.head?_ne {q : Char} {ds : List Char} (h : WritesAll q cs ds) (hq : q ≠ '\\') :
    cs.head? ≠ some q := by
  cases h with
  | nil => exact nofun
  | cons h =>
    cases h with
    | plain hne => exact fun heq => hne (Option.some.inj heq)
    | _ => exact fun heq => hq (Option.some.inj heq).symm

/-- What writes a text between single quotes writes it between double quotes as well once it is
requoted. -/
theorem WritesAll.requote {ds : List Char} (h : WritesAll '\'' cs ds) :
    WritesAll '"' (requote cs) ds := by
  induction h with
  | nil => exact .nil
  | cons h hs ih =>
    obtain ⟨piece', heq, hpiece'⟩ := requote_writes h (hs.head?_ne (by decide))
    rw [heq]
    exact .cons hpiece' ih

/-! ## String tokens -/

/-- A token between double quotes is decoded to the text that its contents write. -/
theorem decodeString_double {ds : List Char} (h : WritesAll '"' cs ds) (position : ℕ) :
    decodeString ⟨.string, String.ofList ('"' :: (cs ++ ['"'])), position⟩
      = .ok (String.ofList ds) := by
  obtain ⟨p, hp⟩ := readString_writesAll h 0 1 []
  unfold decodeString
  rw [String.toList_ofList]
  split
  · rename_i hsingle
    cases hsingle
  · dsimp only
    rw [hp]
    rfl

/-- A token between single quotes is decoded to the text that its contents write. -/
theorem decodeString_single {ds : List Char} (h : WritesAll '\'' cs ds) (position : ℕ) :
    decodeString ⟨.string, String.ofList ('\'' :: (cs ++ ['\''])), position⟩
      = .ok (String.ofList ds) := by
  obtain ⟨p, hp⟩ := readString_writesAll h.requote 0 1 []
  unfold decodeString
  simp only [String.toList_ofList, List.dropLast_concat, hp]
  rfl

/-- The reader `decodeString` decodes a literal to the text that it stands for, at any place. -/
theorem IsLiteral.decodeString_eq {s x : String} (h : IsLiteral s x) (position : ℕ) :
    decodeString ⟨.string, x, position⟩ = .ok s := by
  obtain ⟨rfl | rfl, h⟩ := h
  · rw [decodeString_double h, String.ofList_toList]
  · rw [decodeString_single h, String.ofList_toList]

/-- The reader `decodeString` decodes a quoted text to the text. -/
theorem decodeString_quote (s : String) (position : ℕ) :
    decodeString ⟨.string, Json.quote s, position⟩ = .ok s :=
  (isLiteral_quote s).decodeString_eq position

end Quoted

/-! ## Numbers -/

open Number (Numeral intText signChars)

/-- Whether a character makes a number a binary64 number: a point or the letter of an exponent. -/
def isMark (c : Char) : Bool := c == '.' || c == 'e' || c == 'E'

/-- Digits are not marks: a number of digits alone is decoded as an integer. -/
theorem any_isMark_digits {ds : List ℕ} (h : Number.IsDigits ds) :
    (ds.map Number.digitChar).any isMark = false := by
  rw [List.any_eq_false]
  intro c hc
  obtain ⟨d, hd, rfl⟩ := List.mem_map.mp hc
  have := h.lt_ten d hd
  interval_cases d <;> decide

/-- Whether a numeral has a point or an exponent is seen from its characters. -/
theorem any_isMark (negative : Bool) {n : Numeral} (h : n.WellFormed) :
    (signChars negative ++ n.chars).any isMark = n.hasMark := by
  have hsign : (signChars negative).any isMark = false := by cases negative <;> decide
  have hwhole := any_isMark_digits h.whole
  obtain ⟨whole, part, exponent⟩ := n
  rw [Numeral.chars, List.any_append, List.any_append, List.any_append, hsign, hwhole,
    Bool.false_or, Bool.false_or, Numeral.hasMark]
  rcases part with _ | ds <;> rcases exponent with _ | ⟨negative', es⟩
  · rfl
  · rfl
  · rfl
  · rfl

/-- The reader `decodeNumber` decodes the text of an integer to the integer. -/
theorem decodeNumber_intText (n : ℤ) : decodeNumber (intText n) = .int n := by
  have hmark := any_isMark (decide (n < 0)) (Number.wellFormed_digits n.natAbs)
  rw [← Number.intText_toList] at hmark
  show (if (intText n).toList.any isMark then _ else Value.int ((Number.readInt? _).getD 0)) = _
  rw [hmark, if_neg (by simp [Numeral.hasMark]), Number.readInt?_intText, Option.getD_some]

/-- The reader `decodeNumber` decodes the text of a finite binary64 number to the number, in either
layout, since it has a point or an exponent. -/
theorem decodeNumber_text (l : Number.Layout) {x : Double} (h : x.isFinite = true) :
    decodeNumber (x.text l) = .float x := by
  cases x with
  | finite negative b f =>
    obtain ⟨n, hn, hm, htext, hvalue⟩ := Number.exists_numeral_text l negative b f
    have hmark := any_isMark negative hn
    rw [← htext] at hmark
    show (if (Double.text l (.finite negative b f)).toList.any isMark
      then Value.float ((Number.readDouble? _).getD (.nan 0)) else _) = _
    rw [hmark, if_pos hm, htext, Number.readDouble?_numeral negative hn, Option.getD_some, hvalue]
  | infinite negative => cases h
  | nan n => cases h

end SchemaForge.Source
