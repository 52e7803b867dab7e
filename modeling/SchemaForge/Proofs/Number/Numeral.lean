import SchemaForge.Number.Reading
import SchemaForge.Proofs.Number.Shortest

/-!
# Numbers as they are written

A `Numeral` is the text of a number in its parts: digits, perhaps a point with digits behind it,
perhaps an exponent. Reading it gives what the parts stand for (`readMagnitude?_chars`). The text of
an integer is a numeral of digits only, and the text of a finite binary64 number is one with a point
or an exponent (`Decimal.isMarked_text`), so both are read back: `readInt?_intText` and
`exists_numeral_text`.
-/

namespace SchemaForge.Number

/-- The text of a number without sign in its parts: digits, perhaps a point with digits, and perhaps
an exponent with its sign. -/
structure Numeral where
  /-- The digits in front. -/
  whole : List ℕ
  /-- The digits behind the point, if there is one. -/
  part : Option (List ℕ) := none
  /-- The sign and the digits of the exponent, if there is one. -/
  exponent : Option (Bool × List ℕ) := none

/-- The values of digits, each below ten, and one of them at least. -/
structure IsDigits (ds : List ℕ) : Prop where
  /-- There is a digit. -/
  ne_nil : ds ≠ []
  /-- Every one is below ten. -/
  lt_ten : ∀ d ∈ ds, d < 10

namespace Numeral

/-- The characters of the exponent, which always writes its sign, and nothing where there is no
exponent. -/
def exponentChars : Option (Bool × List ℕ) → List Char
  | none => []
  | some (negative, ds) => 'e' :: (if negative then '-' else '+') :: ds.map digitChar

/-- The characters from the point to the exponent, and nothing where there is no point. -/
def partChars : Option (List ℕ) → List Char
  | none => []
  | some ds => '.' :: ds.map digitChar

/-- The characters of a numeral: the digits in front of the point, the point with those behind it,
and the exponent. -/
def chars (n : Numeral) : List Char :=
  n.whole.map digitChar ++ (partChars n.part ++ exponentChars n.exponent)

/-- There are digits wherever there have to be some: before the point, behind it, and in the
exponent. -/
structure WellFormed (n : Numeral) : Prop where
  /-- The number begins with digits. -/
  whole : IsDigits n.whole
  /-- A point is followed by digits. -/
  part : ∀ ds ∈ n.part, IsDigits ds
  /-- An exponent has digits. -/
  exponent : ∀ e ∈ n.exponent, IsDigits e.2

/-- Whether the number has a point or an exponent, so that no reader takes it for an integer. -/
def hasMark (n : Numeral) : Bool := n.part.isSome || n.exponent.isSome

/-- All digits but those of the exponent, as one number. The value of the numeral is this number at
its `scale`. -/
def significand (n : Numeral) : ℕ := ofDigits 10 (n.whole ++ n.part.getD [])

/-- The power of ten that the exponent stands for, and zero where there is none. -/
def power (n : Numeral) : ℤ :=
  match n.exponent with
  | none => 0
  | some (negative, ds) => if negative then -(ofDigits 10 ds : ℤ) else ofDigits 10 ds

/-- The power of ten by which the significand is scaled: that of the exponent, less the digits
behind the point. -/
def scale (n : Numeral) : ℤ := n.power - (n.part.getD []).length

end Numeral

/-! ## Runs of digits -/

/-- A text with which a run of digits does not go on: it begins neither with a digit nor with an
underscore. -/
def StopsDigits (rest : List Char) : Prop :=
  ∀ c ∈ rest.head?, Text.digitValue? c = none ∧ c ≠ '_'

/-- The character of a digit is no underscore, which may stand between digits. -/
theorem digitChar_ne_underscore {d : ℕ} (h : d < 10) : digitChar d ≠ '_' := by
  interval_cases d <;> decide

/-- A digit in front of others continues the run that `digitTail` reads. -/
theorem digitTail_cons {d : ℕ} (h : d < 10) (rest : List Char) :
    digitTail (digitChar d :: rest) = (d :: (digitTail rest).1, (digitTail rest).2) := by
  rw [digitTail.eq_3 _ _ fun c _ hc _ => digitChar_ne_underscore h hc, digitValue?_digitChar h]

/-- The function `digitTail` reads a run of digits up to a text that stops it. -/
theorem digitTail_digits {rest : List Char} (hrest : StopsDigits rest) :
    ∀ {ds : List ℕ}, (∀ d ∈ ds, d < 10) → digitTail (ds.map digitChar ++ rest) = (ds, rest)
  | [], _ => by
    cases rest with
    | nil => rfl
    | cons c rest =>
      obtain ⟨hd, hu⟩ := hrest c rfl
      rw [List.map_nil, List.nil_append, digitTail.eq_3 _ _ fun _ _ hc _ => hu hc, hd]
  | d :: ds, h => by
    rw [List.map_cons, List.cons_append, digitTail_cons (h d (by simp)),
      digitTail_digits hrest fun e he => h e (by simp [he])]

/-- The function `digitRun` reads digits as a run, up to a text that stops it. -/
theorem digitRun_digits {ds : List ℕ} {rest : List Char} (h : IsDigits ds)
    (hrest : StopsDigits rest) : digitRun (ds.map digitChar ++ rest) = (ds, rest) := by
  obtain ⟨d, ds, rfl⟩ := List.exists_cons_of_ne_nil h.ne_nil
  rw [List.map_cons, List.cons_append, digitRun, digitValue?_digitChar (h.lt_ten d (by simp)),
    digitTail_digits hrest fun e he => h.lt_ten e (by simp [he])]

/-- At the end of a text a run of digits stops. -/
theorem stopsDigits_nil : StopsDigits [] := by
  intro c hc
  cases hc

/-- A mark that is neither a digit nor an underscore stops a run of digits. -/
theorem stopsDigits_cons {c : Char} {rest : List Char} (h : Text.digitValue? c = none)
    (hu : c ≠ '_') : StopsDigits (c :: rest) := by
  intro d hd
  cases hd
  exact ⟨h, hu⟩

/-! ## Reading a numeral -/

namespace Numeral

variable {n : Numeral}

/-- The reader `readExponent?` reads the exponent of a numeral as its `power`. -/
theorem readExponent?_chars (h : n.WellFormed) :
    readExponent? (exponentChars n.exponent) = some n.power := by
  have hexp := h.exponent
  obtain ⟨whole, part, exponent⟩ := n
  unfold power
  rcases exponent with _ | ⟨negative, ds⟩
  · rfl
  · have hds : IsDigits ds := hexp _ rfl
    have hrun := digitRun_digits hds stopsDigits_nil
    rw [List.append_nil] at hrun
    -- The reader asks for one digit at least, and the exponent has one.
    obtain ⟨d, more, rfl⟩ := List.exists_cons_of_ne_nil hds.ne_nil
    cases negative <;>
      · simp only [exponentChars, readExponent?, true_or, if_true, Bool.false_eq_true, if_false,
          takeSign]
        rw [hrun]

/-- What `exponentChars` writes, or the end, stops the digits before it. -/
theorem stopsDigits_exponentChars (e : Option (Bool × List ℕ)) :
    StopsDigits (exponentChars e) := by
  rcases e with _ | ⟨negative, ds⟩
  · exact stopsDigits_nil
  · exact stopsDigits_cons rfl (by decide)

/-- No exponent begins with a point, so that a number has one point at most. -/
theorem exponentChars_ne_point (e : Option (Bool × List ℕ)) (rest : List Char) :
    exponentChars e ≠ '.' :: rest := by
  rcases e with _ | ⟨negative, ds⟩ <;> exact fun h => by cases h

/-- A numeral is read as the number nearest to what its parts stand for: its `significand` scaled by
its `scale`. -/
theorem readMagnitude?_chars (negative : Bool) (h : n.WellFormed) :
    readMagnitude? negative n.chars = some (Double.ofDecimal negative n.significand n.scale) := by
  have hexp := readExponent?_chars h
  have hstop := stopsDigits_exponentChars n.exponent
  have hpoint := exponentChars_ne_point n.exponent
  have hwhole := h.whole
  have hpart := h.part
  unfold readMagnitude? chars significand scale
  generalize n.power = power at *
  generalize exponentChars n.exponent = tail at *
  obtain ⟨whole, part, exponent⟩ := n
  dsimp only at *
  obtain ⟨d, more, rfl⟩ := List.exists_cons_of_ne_nil hwhole.ne_nil
  -- Where the digits end depends on what follows them: the point, the exponent or nothing.
  rcases part with _ | ds
  · rw [partChars, List.nil_append, digitRun_digits hwhole hstop]
    rcases tail with _ | ⟨c, rest⟩
    · simp [hexp]
    · have hc : c ≠ '.' := fun hc => hpoint rest (by rw [hc])
      simp [hexp]
  · rw [partChars, List.cons_append,
      digitRun_digits hwhole (stopsDigits_cons rfl (by decide : '.' ≠ '_'))]
    simp [digitRun_digits (hpart ds rfl) hstop, hexp]

/-- Every character of a numeral is a digit or one of the four marks that it writes. -/
theorem mem_chars (h : n.WellFormed) {c : Char} (hc : c ∈ n.chars) :
    (∃ d < 10, c = digitChar d) ∨ c = '.' ∨ c = 'e' ∨ c = '+' ∨ c = '-' := by
  obtain ⟨whole, part, exponent⟩ := n
  have hdigit : ∀ {ds : List ℕ}, IsDigits ds → c ∈ ds.map digitChar →
      ∃ d < 10, c = digitChar d := by
    intro ds hds hmem
    obtain ⟨d, hd, rfl⟩ := List.mem_map.mp hmem
    exact ⟨d, hds.lt_ten d hd, rfl⟩
  rw [chars, List.mem_append, List.mem_append] at hc
  -- It is among the digits before the point, behind it or in the exponent.
  rcases hc with hc | hc | hc
  · exact Or.inl (hdigit h.whole hc)
  · rcases part with _ | ds
    · cases hc
    · rcases List.mem_cons.mp hc with rfl | hc
      · simp
      · exact Or.inl (hdigit (h.part ds rfl) hc)
  · rcases exponent with _ | ⟨negative, ds⟩
    · cases hc
    · rcases List.mem_cons.mp hc with rfl | hc
      · simp
      · rcases List.mem_cons.mp hc with rfl | hc
        · cases negative <;> simp
        · exact Or.inl (hdigit (h.exponent _ rfl) hc)

/-- A numeral begins with a digit, so that it can be told from names and signs. -/
theorem exists_chars_eq_cons (h : n.WellFormed) :
    ∃ d < 10, ∃ rest, n.chars = digitChar d :: rest := by
  obtain ⟨d, more, hd⟩ := List.exists_cons_of_ne_nil h.whole.ne_nil
  refine ⟨d, h.whole.lt_ten d (by simp [hd]),
    more.map digitChar ++ (partChars n.part ++ exponentChars n.exponent), ?_⟩
  rw [chars, hd, List.map_cons, List.cons_append]

end Numeral

/-! ## Signs and names -/

/-- The function `trimBlank` leaves a text without blanks as it is. -/
theorem trimBlank_of_forall {cs : List Char} (h : ∀ c ∈ cs, Text.isNumberBlank c = false) :
    trimBlank cs = cs := by
  have hdrop : ∀ {ds : List Char}, (∀ c ∈ ds, Text.isNumberBlank c = false) →
      ds.dropWhile Text.isNumberBlank = ds := by
    intro ds hds
    cases ds with
    | nil => rfl
    | cons c ds => rw [List.dropWhile_cons_of_neg (by simp [hds c (by simp)])]
  rw [trimBlank, hdrop h, hdrop fun c hc => h c (List.mem_reverse.mp hc), List.reverse_reverse]

/-- A minus sign in front of a numeral if it is negative, or nothing. -/
def signChars (negative : Bool) : List Char := if negative then ['-'] else []

/-- There are no blanks at the ends of a numeral, so that `trimBlank` leaves it as it is, with its
sign. -/
theorem trimBlank_numeral (negative : Bool) {n : Numeral} (h : n.WellFormed) :
    trimBlank (signChars negative ++ n.chars) = signChars negative ++ n.chars := by
  refine trimBlank_of_forall fun c hc => ?_
  rw [List.mem_append] at hc
  rcases hc with hc | hc
  · cases negative
    · cases hc
    · rw [List.mem_singleton.mp hc]
      decide
  · rcases Numeral.mem_chars h hc with ⟨d, hd, rfl⟩ | rfl | rfl | rfl | rfl
    · interval_cases d <;> decide
    all_goals decide

/-- The reader `takeSign` takes the sign off that is written in front of a numeral. -/
theorem takeSign_numeral (negative : Bool) {n : Numeral} (h : n.WellFormed) :
    takeSign (signChars negative ++ n.chars) = (negative, n.chars) := by
  obtain ⟨d, hd, rest, hn⟩ := Numeral.exists_chars_eq_cons h
  rw [hn]
  cases negative
  · show takeSign (digitChar d :: rest) = _
    interval_cases d <;> rfl
  · rfl

/-- A text that begins with a digit is none of the names of numbers, in capitals or not. -/
theorem ofList_toLower_ne {d : ℕ} (hd : d < 10) {rest : List Char} {name : String}
    (hname : name.toList.head?.all Char.isAlpha = true) :
    String.ofList ((digitChar d :: rest).map Char.toLower) ≠ name := by
  rintro rfl
  have halpha : (digitChar d).toLower.isAlpha = true := by
    rwa [String.toList_ofList] at hname
  revert halpha
  interval_cases d <;> decide

/-- The reader `readDouble?` reads a signed numeral as the binary64 number nearest to it. -/
theorem readDouble?_numeral (negative : Bool) {n : Numeral} (h : n.WellFormed) :
    readDouble? (signChars negative ++ n.chars)
      = some (Double.ofDecimal negative n.significand n.scale) := by
  obtain ⟨d, hd, rest, hn⟩ := Numeral.exists_chars_eq_cons h
  have hmagnitude := Numeral.readMagnitude?_chars negative h
  unfold readDouble?
  rw [trimBlank_numeral negative h, takeSign_numeral negative h]
  dsimp only
  rw [hn] at hmagnitude ⊢
  rw [if_neg, if_neg, hmagnitude]
  · exact ofList_toLower_ne hd (by decide)
  · rintro (hinf | hinf)
    · exact ofList_toLower_ne hd (by decide) hinf
    · exact ofList_toLower_ne hd (by decide) hinf

/-! ## Integers -/

/-- The `digitValues` of a number are digits, at least one and each below ten. -/
theorem isDigits_digitValues (n : ℕ) : IsDigits (digitValues n) :=
  ⟨digitValues_ne_nil n, fun _ => digitValues_lt⟩

/-- The digits of a number are a numeral without a point and without an exponent. -/
theorem wellFormed_digits (n : ℕ) : Numeral.WellFormed ⟨digitValues n, none, none⟩ :=
  ⟨isDigits_digitValues n, by simp, by simp⟩

/-- The text of an integer is a numeral of digits only, with a sign if the integer is negative. -/
theorem intText_toList (n : ℤ) :
    (intText n).toList
      = signChars (decide (n < 0)) ++ Numeral.chars ⟨digitValues n.natAbs, none, none⟩ := by
  rw [intText, String.toList_ofList, digits_eq_map, Numeral.chars, Numeral.partChars,
    Numeral.exponentChars, List.append_nil, List.append_nil]
  by_cases h : n < 0 <;> simp [signChars, h]

/-- The reader `readInt?` gives back every integer from its `intText`. -/
theorem readInt?_intText (n : ℤ) : readInt? (intText n).toList = some n := by
  have hrun := digitRun_digits (isDigits_digitValues n.natAbs) stopsDigits_nil
  have hn := wellFormed_digits n.natAbs
  rw [List.append_nil] at hrun
  rw [readInt?, intText_toList, trimBlank_numeral _ hn, takeSign_numeral _ hn, Numeral.chars,
    Numeral.partChars, Numeral.exponentChars, List.append_nil, List.append_nil]
  dsimp only
  rw [hrun]
  obtain ⟨d, more, hd⟩ := List.exists_cons_of_ne_nil (digitValues_ne_nil n.natAbs)
  have hvalue := ofDigits_digitValues n.natAbs
  rw [hd] at hvalue ⊢
  dsimp only
  rw [hvalue]
  -- The sign is written apart from the digits, which are those of the absolute value.
  by_cases h : n < 0
  · rw [if_pos (by simpa using h)]
    congr 1
    omega
  · rw [if_neg (by simpa using h)]
    congr 1
    omega

/-! ## Finite binary64 numbers -/

/-- The character of the digit zero is the character `0`. -/
theorem digitChar_zero : digitChar 0 = '0' := rfl

/-- A text that is a well-formed `Numeral` of a value, with a point or an exponent. Such a text is
read as a binary64 number and not as an integer. -/
def IsMarked (cs : List Char) (value : ℚ) : Prop :=
  ∃ n : Numeral, n.WellFormed ∧ n.hasMark ∧ n.chars = cs ∧
    (n.significand : ℚ) * 10 ^ n.scale = value

variable {vs : List ℕ}

/-- Zeros in front of digits give digits again. -/
theorem isDigits_zeros_append (k : ℕ) (h : IsDigits vs) : IsDigits (List.replicate k 0 ++ vs) := by
  refine ⟨by simp [h.ne_nil], fun d hd => ?_⟩
  rcases List.mem_append.mp hd with hd | hd
  · rw [List.eq_of_mem_replicate hd]
    omega
  · exact h.lt_ten d hd

/-- Zeros behind digits give digits again. -/
theorem isDigits_append_zeros (k : ℕ) (h : IsDigits vs) : IsDigits (vs ++ List.replicate k 0) := by
  refine ⟨by simp [h.ne_nil], fun d hd => ?_⟩
  rcases List.mem_append.mp hd with hd | hd
  · exact h.lt_ten d hd
  · rw [List.eq_of_mem_replicate hd]
    omega

/-- A zero alone is a run of digits. -/
theorem isDigits_zero : IsDigits [0] := ⟨by simp, by simp⟩

/-- All digits may stand behind the point, with zeros between, as for numbers well below one. -/
theorem isMarked_behind (h : IsDigits vs) (k : ℕ) :
    IsMarked ('0' :: '.' :: (List.replicate k '0' ++ vs.map digitChar))
      (ofDigits 10 vs * 10 ^ (-(k + vs.length : ℕ) : ℤ)) := by
  refine ⟨⟨[0], some (List.replicate k 0 ++ vs), none⟩, ⟨isDigits_zero, ?_, by simp⟩, rfl, ?_, ?_⟩
  · rintro _ ⟨⟩
    exact isDigits_zeros_append k h
  · simp [Numeral.chars, Numeral.partChars, Numeral.exponentChars, digitChar_zero]
  · have hsig : ofDigits 10 (0 :: (List.replicate k 0 ++ vs)) = ofDigits 10 vs := by
      rw [← List.cons_append, ← List.replicate_succ, ofDigits_append, ofDigits_replicate_zero,
        zero_mul, zero_add]
    simp only [Numeral.significand, Numeral.scale, Numeral.power, Option.getD_some,
      List.singleton_append, hsig, List.length_append, List.length_replicate, zero_sub]

/-- All digits may stand before the point, with zeros behind them, as for large integers. -/
theorem isMarked_before (h : IsDigits vs) (k : ℕ) :
    IsMarked (vs.map digitChar ++ List.replicate k '0' ++ ['.', '0'])
      (ofDigits 10 vs * 10 ^ (k : ℤ)) := by
  refine ⟨⟨vs ++ List.replicate k 0, some [0], none⟩, ⟨isDigits_append_zeros k h, ?_, by simp⟩, rfl,
    ?_, ?_⟩
  · rintro _ ⟨⟩
    exact isDigits_zero
  · simp [Numeral.chars, Numeral.partChars, Numeral.exponentChars, digitChar_zero]
  · simp only [Numeral.significand, Numeral.scale, Numeral.power, Option.getD_some,
      ofDigits_append, ofDigits_replicate_zero, List.length_replicate, List.length_singleton,
      zero_sub]
    rw [show ofDigits 10 [0] = 0 from rfl]
    push_cast
    rw [zpow_neg, zpow_one, zpow_natCast]
    ring

/-- A point among the digits gives a numeral whose value is a power of ten smaller. -/
theorem isMarked_among (h : IsDigits vs) {k : ℕ} (hk : 0 < k) (hlen : k < vs.length) :
    IsMarked ((vs.map digitChar).take k ++ '.' :: (vs.map digitChar).drop k)
      (ofDigits 10 vs * 10 ^ (-(vs.length - k : ℕ) : ℤ)) := by
  refine ⟨⟨vs.take k, some (vs.drop k), none⟩,
    ⟨⟨?_, fun d hd => h.lt_ten d (List.mem_of_mem_take hd)⟩, ?_, by simp⟩, rfl, ?_, ?_⟩
  · rw [ne_eq, List.take_eq_nil_iff]
    rintro (h0 | h0)
    · omega
    · exact h.ne_nil h0
  · rintro _ ⟨⟩
    refine ⟨?_, fun d hd => h.lt_ten d (List.mem_of_mem_drop hd)⟩
    rw [ne_eq, List.drop_eq_nil_iff]
    omega
  · simp [Numeral.chars, Numeral.partChars, Numeral.exponentChars, List.map_take, List.map_drop]
  · simp only [Numeral.significand, Numeral.scale, Numeral.power, Option.getD_some,
      List.take_append_drop, List.length_drop, zero_sub]

/-- A text that `positional` writes is a numeral with a point, of the value that its digits have at
their exponent. -/
theorem isMarked_positional (h : IsDigits vs) (exponent : ℤ) :
    IsMarked (positional (vs.map digitChar) (vs.length + exponent))
      (ofDigits 10 vs * 10 ^ exponent) := by
  unfold positional
  dsimp only
  rw [List.length_map]
  split_ifs with hpoint hlen
  · have hb := isMarked_behind h (-((vs.length : ℤ) + exponent)).toNat
    rwa [show (-((-((vs.length : ℤ) + exponent)).toNat + vs.length : ℕ) : ℤ) = exponent by omega]
      at hb
  · have hb := isMarked_before h (((vs.length : ℤ) + exponent).toNat - vs.length)
    rwa [show ((((vs.length : ℤ) + exponent).toNat - vs.length : ℕ) : ℤ) = exponent by omega] at hb
  · have hb := isMarked_among h (k := ((vs.length : ℤ) + exponent).toNat) (by omega) (by omega)
    rwa [show (-(vs.length - ((vs.length : ℤ) + exponent).toNat : ℕ) : ℤ) = exponent by omega] at hb

/-- The digits of an exponent, of which there are at least two: `05` and not `5`. -/
def exponentDigits (e : ℤ) : List ℕ :=
  List.replicate (2 - (digits e.natAbs).length) 0 ++ digitValues e.natAbs

/-- What `padded` writes of an exponent are its `exponentDigits`. -/
theorem padded_toList (e : ℤ) : (padded 2 e.natAbs).toList = (exponentDigits e).map digitChar := by
  simp [padded, exponentDigits, digits_eq_map, digitChar_zero]

/-- The digits of an exponent stand for its magnitude, also with a zero in front. -/
theorem ofDigits_exponentDigits (e : ℤ) :
    (if decide (e < 0) then -(ofDigits 10 (exponentDigits e) : ℤ)
      else ofDigits 10 (exponentDigits e)) = e := by
  rw [exponentDigits, ofDigits_append, ofDigits_replicate_zero, zero_mul, zero_add,
    ofDigits_digitValues]
  by_cases he : e < 0
  · rw [if_pos (decide_eq_true he)]
    omega
  · rw [if_neg (by simpa using he)]
    omega

/-- A text that `scientific` writes is a numeral with an exponent, of the value that its digits have
at their exponent. -/
theorem isMarked_scientific (h : IsDigits vs) (exponent : ℤ) :
    IsMarked (scientific (vs.map digitChar) (vs.length + exponent - 1))
      (ofDigits 10 vs * 10 ^ exponent) := by
  obtain ⟨v, more, rfl⟩ := List.exists_cons_of_ne_nil h.ne_nil
  generalize he : (((v :: more).length : ℕ) : ℤ) + exponent - 1 = e
  -- One digit stands before the point, and all others behind it.
  refine ⟨⟨[v], if more = [] then none else some more, some (decide (e < 0), exponentDigits e)⟩,
    ⟨⟨by simp, fun d hd => h.lt_ten d (by simp_all)⟩, ?_, ?_⟩, by simp [Numeral.hasMark], ?_, ?_⟩
  · intro ds hds
    split_ifs at hds with hmore
    · cases hds
    · obtain rfl : more = ds := Option.some.inj hds
      exact ⟨hmore, fun d hd => h.lt_ten d (by simp [hd])⟩
  · rintro _ ⟨⟩
    exact isDigits_zeros_append _ (isDigits_digitValues _)
  · unfold scientific
    rw [padded_toList]
    cases more <;> simp [Numeral.chars, Numeral.partChars, Numeral.exponentChars]
  · have hpart : (if more = [] then none else some more).getD [] = more := by
      split_ifs with hmore
      · exact hmore.symm
      · rfl
    have hscale : e - (more.length : ℕ) = exponent := by
      rw [List.length_cons] at he
      omega
    simp only [Numeral.significand, Numeral.scale, Numeral.power, hpart, ofDigits_exponentDigits,
      hscale, List.singleton_append]

/-- The text of a decimal is a numeral of its value, with a point or an exponent, in every
`Layout`. -/
theorem Decimal.isMarked_text (l : Layout) (d : Decimal) :
    IsMarked (d.text l) (d.digits * 10 ^ d.exponent) := by
  have h := isDigits_digitValues d.digits
  have hvalue := ofDigits_digitValues d.digits
  unfold Decimal.text
  dsimp only
  rw [digits_eq_map, List.length_map]
  generalize digitValues d.digits = vs at *
  rw [← hvalue]
  split_ifs
  · exact isMarked_positional h d.exponent
  · exact isMarked_scientific h d.exponent

/-- The text of a finite number is a numeral with a sign, with a point or an exponent, from which
`ofDecimal` gives the number back. -/
theorem exists_numeral_text (l : Layout) (negative : Bool) (b : Fin 2047)
    (f : Fin 4503599627370496) :
    ∃ n : Numeral, n.WellFormed ∧ n.hasMark ∧
      (Double.text l (.finite negative b f)).toList = signChars negative ++ n.chars ∧
      Double.ofDecimal negative n.significand n.scale = .finite negative b f := by
  obtain ⟨n, hn, hmark, hchars, hvalue⟩ := (Double.decimal b f).isMarked_text l
  refine ⟨n, hn, hmark, ?_, Double.ofDecimal_decimal negative b f hvalue⟩
  rw [Double.text, String.toList_ofList, hchars, signChars]

end SchemaForge.Number
