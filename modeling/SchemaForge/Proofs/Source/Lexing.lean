import Mathlib.Tactic.IntervalCases
import SchemaForge.Json.Writer
import SchemaForge.Proofs.Number.Numeral
import SchemaForge.Proofs.Source.Spelling

/-!
# The tokens that modules are written with

Marks of punctuation, names, numerals and quoted texts are each one token, whatever follows that
does not run on. For a quoted text that holds of every text: what is escaped in it cannot end it,
and no line feed is left in it (`isToken_quote`).
-/

namespace SchemaForge.Source

variable {c q : Char} {tail cs rest : List Char} {p : Char → Bool}

/-- The test that no character passes, for tokens that nothing can prolong. -/
def never : Char → Bool := fun _ => false

/-- The function `countWhile` counts leading characters up to one that does not pass the test. -/
theorem countWhile_append (h : ∀ c ∈ cs, p c = true) (hrest : Avoids p rest) :
    countWhile p (cs ++ rest) = cs.length := by
  induction cs with
  | nil =>
    cases rest with
    | nil => rfl
    | cons c rest =>
      rw [List.nil_append, countWhile, List.takeWhile_cons_of_neg (by simp [hrest c rfl])]
  | cons c cs ih =>
    rw [List.cons_append, countWhile, List.takeWhile_cons_of_pos (h c List.mem_cons_self),
      List.length_cons, List.length_cons]
    exact congrArg (· + 1) (ih fun d hd => h d (List.mem_cons_of_mem c hd))

/-- Without a digit or a point in front, `magnitudeLength?` finds no number. -/
theorem magnitudeLength?_eq_none (hd : Text.isDigit c = false) (hp : c ≠ '.') (rest : List Char) :
    magnitudeLength? (c :: rest) = none := by
  have hcount : countWhile Text.isDigit (c :: rest) = 0 := by
    rw [countWhile, List.takeWhile_cons_of_neg (by simp [hd])]
    rfl
  rw [magnitudeLength?, mantissaLength?, hcount, List.drop_zero]
  dsimp only
  split
  · rename_i heq
    cases heq
    exact absurd rfl hp
  · rfl

/-- The digits of a number with a point, behind which digits may follow or not. -/
theorem mantissaLength?_of_point {whole : ℕ} (hw : countWhile Text.isDigit cs = whole)
    (hd : cs.drop whole = '.' :: rest) :
    mantissaLength? cs = if whole = 0 ∧ countWhile Text.isDigit rest = 0 then none
      else some (whole + 1 + countWhile Text.isDigit rest) := by
  unfold mantissaLength?
  simp only [hw, hd]

/-! ## Marks -/

/-- A mark other than the point `IsToken`, whatever follows. -/
theorem isToken_mark (h : c ∈ ['\x7b', '\x7d', '(', ')', '[', ']', ',', ':', ';', '=']) :
    IsToken never .punctuation c [] := by
  refine ⟨fun rest _ => ?_, fun d hd => Bool.noConfusion hd, ?_⟩
  · have hnone : magnitudeLength? (c :: rest) = none := by
      apply magnitudeLength?_eq_none
      all_goals simp only [List.mem_cons, List.not_mem_nil, or_false] at h
      all_goals rcases h with rfl | rfl | rfl | rfl | rfl | rfl | rfl | rfl | rfl | rfl <;> decide
    unfold lexeme?
    rw [List.nil_append, hnone]
    simp only [List.mem_cons, List.not_mem_nil, or_false] at h
    rcases h with rfl | rfl | rfl | rfl | rfl | rfl | rfl | rfl | rfl | rfl <;> rfl
  · simp only [List.mem_cons, List.not_mem_nil, or_false] at h ⊢
    rcases h with rfl | rfl | rfl | rfl | rfl | rfl | rfl | rfl | rfl | rfl <;> decide

/-- A point is a token if no digit follows, with which it would begin a number. -/
theorem isToken_point : IsToken Text.isDigit .punctuation '.' [] := by
  refine ⟨fun rest hrest => ?_, fun d hd => ?_, by decide⟩
  · have hcount : countWhile Text.isDigit ([] ++ rest) = ([] : List Char).length :=
      countWhile_append (by simp) hrest
    rw [List.nil_append, List.length_nil] at hcount
    have hnone : magnitudeLength? ('.' :: rest) = none := by
      have hzero : countWhile Text.isDigit ('.' :: rest) = 0 := rfl
      rw [magnitudeLength?, mantissaLength?_of_point hzero List.drop_zero, if_pos ⟨rfl, hcount⟩,
        Option.map_none]
    unfold lexeme?
    rw [List.nil_append, hnone]
    rfl
  · rw [runsOn, hd, Bool.or_true, Bool.true_or]

/-! ## Names -/

/-- What holds of the first 128 characters holds of a character with a number below 128. -/
theorem of_ascii {P : Char → Prop} (h : ∀ n < 128, P (Char.ofNat n)) (hc : c.toNat < 128) :
    P c := by
  have := h c.toNat hc
  rwa [Char.ofNat_toNat] at this

/-- A character that may begin a name begins nothing else, so that the scanner takes it for one. -/
theorem isNameStart_spec (h : isNameStart c = true) :
    Text.isBlank c = false ∧ Text.isDigit c = false ∧
      ∀ d ∈ ['/', '"', '\'', '-', '.', '\n'], c ≠ d := by
  have hc : c.toNat < 128 := by
    by_contra hc
    have hne : ∀ d : Char, d.toNat < 128 → (c == d) = false := by
      intro d hd
      rw [beq_eq_false_iff_ne]
      rintro rfl
      exact hc hd
    simp only [isNameStart, hne '_' (by decide), hne '$' (by decide), Bool.or_false,
      Bool.or_eq_true, Bool.and_eq_true, decide_eq_true_eq] at h
    omega
  -- Below 128 there are finitely many characters to look at.
  have hother : isNameStart c = true → Text.isBlank c = false ∧ Text.isDigit c = false ∧
      c ∉ ['/', '"', '\'', '-', '.', '\n'] := by
    exact of_ascii (P := fun c => isNameStart c = true → Text.isBlank c = false ∧
      Text.isDigit c = false ∧ c ∉ ['/', '"', '\'', '-', '.', '\n']) (by decide +kernel) hc
  obtain ⟨hblank, hdigit, hmem⟩ := hother h
  exact ⟨hblank, hdigit, fun d hd => (ne_of_mem_of_not_mem hd hmem).symm⟩

/-- A line feed is no part of a name. -/
theorem isNamePart_ne_feed (h : isNamePart c = true) : '\n' ≠ c := by
  rintro rfl
  exact absurd h (by decide)

/-- A name `IsToken` if no part of a name follows. -/
theorem isToken_name (h : isNameStart c = true) (ht : ∀ d ∈ tail, isNamePart d = true) :
    IsToken isNamePart .name c tail := by
  obtain ⟨hblank, hdigit, hne⟩ := isNameStart_spec h
  refine ⟨fun rest hrest => ?_, fun d hd => ?_, ?_⟩
  · unfold lexeme?
    rw [if_neg (by simp [hblank]), if_neg (hne '/' (by simp)),
      if_neg (by simp [hne '"' (by simp), hne '\'' (by simp)]), if_neg (hne '-' (by simp)),
      magnitudeLength?_eq_none hdigit (hne '.' (by simp))]
    dsimp only
    rw [if_pos h, countWhile_append ht hrest]
  · rw [runsOn, hd, Bool.true_or, Bool.true_or]
  · rw [List.mem_cons, not_or]
    exact ⟨(hne '\n' (by simp)).symm, fun hmem => isNamePart_ne_feed (ht _ hmem) rfl⟩

/-! ## Numerals -/

open Number (Numeral IsDigits digitChar digitValue?_digitChar signChars)

/-- The character of a value below ten is a digit. -/
theorem isDigit_digitChar {d : ℕ} (h : d < 10) : Text.isDigit (digitChar d) = true := by
  rw [Text.isDigit, digitValue?_digitChar h]
  rfl

/-- The characters of digits are digits. -/
theorem forall_isDigit {ds : List ℕ} (h : IsDigits ds) :
    ∀ c ∈ ds.map digitChar, Text.isDigit c = true := by
  intro c hc
  obtain ⟨d, hd, rfl⟩ := List.mem_map.mp hc
  exact isDigit_digitChar (h.lt_ten d hd)

/-- A text that does not run on does not begin with a digit. -/
theorem avoids_isDigit (h : Avoids runsOn rest) : Avoids Text.isDigit rest := by
  intro c hc
  have := h c hc
  rw [runsOn, Bool.or_eq_false_iff, Bool.or_eq_false_iff] at this
  exact this.1.2

/-- Neither an exponent nor what does not run on begins with a digit or a point. -/
theorem avoids_exponentChars (e : Option (Bool × List ℕ)) (h : Avoids runsOn rest) :
    Avoids (fun c => Text.isDigit c || c == '.') (Numeral.exponentChars e ++ rest) := by
  rcases e with _ | ⟨negative, ds⟩
  · intro c hc
    have := h c hc
    rw [runsOn, Bool.or_eq_false_iff, Bool.or_eq_false_iff] at this
    exact Bool.or_eq_false_iff.mpr ⟨this.1.2, this.2⟩
  · exact avoids_cons (by decide)

/-- The function `exponentLength` measures the exponent of a numeral, whatever follows that does not
run on. -/
theorem exponentLength_chars {n : Numeral} (h : n.WellFormed) (hrest : Avoids runsOn rest) :
    exponentLength (Numeral.exponentChars n.exponent ++ rest)
      = (Numeral.exponentChars n.exponent).length := by
  obtain ⟨whole, part, exponent⟩ := n
  rcases exponent with _ | ⟨negative, ds⟩
  · cases rest with
    | nil => rfl
    | cons c rest =>
      have hc : ¬(c = 'e' ∨ c = 'E') := by
        have := hrest c rfl
        rintro (rfl | rfl) <;> exact absurd this (by decide)
      exact if_neg hc
  · have hds : IsDigits ds := h.exponent _ rfl
    have hcount := countWhile_append (forall_isDigit hds) (avoids_isDigit hrest)
    -- An exponent without digits would not count as one.
    have hpos : ds.length ≠ 0 := fun h0 => hds.ne_nil (List.length_eq_zero_iff.mp h0)
    rw [List.length_map] at hcount
    cases negative <;>
      simp [Numeral.exponentChars, exponentLength, hcount, hpos] <;> omega

/-- The function `magnitudeLength?` measures a numeral, whatever follows that does not run on. -/
theorem magnitudeLength?_chars {n : Numeral} (h : n.WellFormed) (hrest : Avoids runsOn rest) :
    magnitudeLength? (n.chars ++ rest) = some n.chars.length := by
  have hexp := exponentLength_chars h hrest
  have havoid := avoids_exponentChars n.exponent hrest
  have hwhole := h.whole
  have hpart := h.part
  rw [Numeral.chars]
  generalize Numeral.exponentChars n.exponent = e at *
  obtain ⟨whole, part, exponent⟩ := n
  dsimp only at *
  have hpos : whole.length ≠ 0 := fun h0 => hwhole.ne_nil (List.length_eq_zero_iff.mp h0)
  have hstop : Avoids Text.isDigit (e ++ rest) := by
    intro c hc
    have := havoid c hc
    rw [Bool.or_eq_false_iff] at this
    exact this.1
  -- With a point in the numeral there are two runs of digits to measure, and one without.
  rcases part with _ | ds
  · have hcount := countWhile_append (forall_isDigit hwhole) hstop
    have hmantissa : mantissaLength? (whole.map digitChar ++ (e ++ rest)) = some whole.length := by
      rw [mantissaLength?, hcount, List.drop_left, List.length_map]
      dsimp only
      split
      · rename_i more heq
        rw [heq] at havoid
        exact absurd (havoid '.' rfl) (by decide)
      · rw [if_neg hpos]
    rw [Numeral.partChars, List.nil_append, List.append_assoc, magnitudeLength?, hmantissa,
      Option.map_some, List.drop_left' (List.length_map _), hexp, List.length_append,
      List.length_map]
  · have hpoint : Avoids Text.isDigit ('.' :: (ds.map digitChar ++ (e ++ rest))) :=
      avoids_cons (by decide)
    have hcount := countWhile_append (forall_isDigit hwhole) hpoint
    have hcount' := countWhile_append (forall_isDigit (hpart ds rfl)) hstop
    have hmantissa : mantissaLength?
        (whole.map digitChar ++ '.' :: (ds.map digitChar ++ (e ++ rest)))
        = some (whole.length + 1 + ds.length) := by
      rw [mantissaLength?_of_point hcount List.drop_left, hcount', List.length_map,
        List.length_map, if_neg fun h0 => hpos h0.1]
    have hdrop : (whole.map digitChar ++ '.' :: (ds.map digitChar ++ (e ++ rest))).drop
        (whole.length + 1 + ds.length) = e ++ rest := by
      rw [← List.cons_append, ← List.append_assoc]
      exact List.drop_left' (by simp; omega)
    rw [Numeral.partChars, List.append_assoc, List.append_assoc, List.cons_append,
      magnitudeLength?, hmantissa, Option.map_some, hdrop, hexp]
    simp only [List.length_append, List.length_map, List.length_cons]
    congr 1
    omega

/-- A numeral with a sign is a token, whatever follows that does not run on. -/
theorem isToken_numeral (negative : Bool) {n : Numeral} (h : n.WellFormed) :
    ∃ c tail, signChars negative ++ n.chars = c :: tail ∧ IsToken runsOn .number c tail := by
  obtain ⟨d, hd, more, hn⟩ := Numeral.exists_chars_eq_cons h
  have hfeed : '\n' ∉ n.chars := by
    intro hmem
    rcases Numeral.mem_chars h hmem with ⟨e, he, heq⟩ | heq | heq | heq | heq
    · interval_cases e <;> cases heq
    all_goals cases heq
  -- Without a sign the first digit leads the token, with one the sign does.
  cases negative
  · refine ⟨digitChar d, more, hn, fun rest hrest => ?_, fun _ h => h, hn ▸ hfeed⟩
    have hlength := magnitudeLength?_chars h hrest
    rw [hn, List.cons_append] at hlength
    unfold lexeme?
    rw [hlength]
    interval_cases d <;> rfl
  · refine ⟨'-', n.chars, rfl, fun rest hrest => ?_, fun _ h => h, ?_⟩
    · unfold lexeme?
      rw [magnitudeLength?_chars h hrest]
      rfl
    · rw [List.mem_cons, not_or]
      exact ⟨by decide, hfeed⟩

/-! ## Quoted texts -/

/-- What may stand between the quotes `q`: the quote, a backslash and a line feed stand behind a
backslash only. -/
inductive IsBody (q : Char) : List Char → Prop
  /-- Nothing. -/
  | nil : IsBody q []
  /-- A character behind a backslash. -/
  | escaped {c : Char} {cs : List Char} (h : IsBody q cs) : IsBody q ('\\' :: c :: cs)
  /-- Another character. -/
  | plain {c : Char} {cs : List Char} (hq : c ≠ q) (hb : c ≠ '\\') (hf : c ≠ '\n')
      (h : IsBody q cs) : IsBody q (c :: cs)

/-- A string goes on to the first quote that stands behind no backslash. -/
theorem stringTail?_append (hq : q ≠ '\\') (h : IsBody q cs) :
    stringTail? q (cs ++ q :: rest) = some (cs.length + 1) := by
  induction h with
  | nil =>
    rw [List.nil_append, stringTail?.eq_3 _ _ _ fun _ _ h => absurd h hq, if_pos rfl]
    rfl
  | escaped _ ih =>
    rw [List.cons_append, List.cons_append, stringTail?, ih]
    rfl
  | plain hc hb hf _ ih =>
    rw [List.cons_append, stringTail?.eq_3 _ _ _ fun _ _ h => absurd h hb, if_neg hc,
      if_neg (not_or.mpr ⟨hf, hb⟩), ih]
    rfl

/-- At a quote `lexeme?` finds the string up to the same quote, or nothing. -/
theorem lexeme?_quote (hq : q = '"' ∨ q = '\'') (rest : List Char) :
    lexeme? q rest = (stringTail? q rest).map fun n => (.token .string, n) := by
  rcases hq with rfl | rfl <;> rfl

/-- The bodies of two strings, one behind the other, are the body of a string. -/
theorem IsBody.append (h : IsBody q cs) (hrest : IsBody q rest) : IsBody q (cs ++ rest) := by
  induction h with
  | nil => exact hrest
  | escaped _ ih => exact .escaped ih
  | plain hq hb hf _ ih => exact .plain hq hb hf ih

/-- A body between quotes is a token if it stands on one line, whatever follows. -/
theorem isToken_string (hq : q = '"' ∨ q = '\'') (h : IsBody q cs) (hfeed : '\n' ∉ cs) :
    IsToken never .string q (cs ++ [q]) := by
  have hslash : q ≠ '\\' := by rcases hq with rfl | rfl <;> decide
  have hline : '\n' ≠ q := by rcases hq with rfl | rfl <;> decide
  refine ⟨fun rest _ => ?_, fun d hd => Bool.noConfusion hd, by simp [hline, hfeed]⟩
  rw [List.append_assoc, List.singleton_append, lexeme?_quote hq, stringTail?_append hslash h,
    List.length_append]
  rfl

/-- No digit of an escape by number is a quote, a backslash or a line feed. -/
theorem hexDigit_spec {d : ℕ} (h : d < 16) :
    Text.hexDigit d ≠ '"' ∧ Text.hexDigit d ≠ '\\' ∧ Text.hexDigit d ≠ '\n' := by
  interval_cases d <;> decide

/-- What `Json.escapedChar` makes of a character may stand between double quotes. -/
theorem isBody_escapedChar (c : Char) : IsBody '"' (Json.escapedChar c) := by
  unfold Json.escapedChar
  split_ifs with hq hb hn hr ht h8 h12 h32
  all_goals try exact .escaped .nil
  · -- an escape by number: the letter, and four digits
    obtain ⟨h1, h1', h1''⟩ :=
      hexDigit_spec (Nat.mod_lt (c.toNat / 16 / 16 / 16) (by decide : 0 < 16))
    obtain ⟨h2, h2', h2''⟩ := hexDigit_spec (Nat.mod_lt (c.toNat / 16 / 16) (by decide : 0 < 16))
    obtain ⟨h3, h3', h3''⟩ := hexDigit_spec (Nat.mod_lt (c.toNat / 16) (by decide : 0 < 16))
    obtain ⟨h4, h4', h4''⟩ := hexDigit_spec (Nat.mod_lt c.toNat (by decide : 0 < 16))
    have hdigits := IsBody.plain h3 h3' h3'' (.plain h4 h4' h4'' .nil)
    exact .escaped (.plain h1 h1' h1'' (.plain h2 h2' h2'' hdigits))
  · exact .plain hq hb hn .nil

/-- A text escaped by `Json.escapedChar` may stand between double quotes. -/
theorem isBody_flatMap (cs : List Char) : IsBody '"' (cs.flatMap Json.escapedChar) := by
  induction cs with
  | nil => exact .nil
  | cons c cs ih => exact (isBody_escapedChar c).append ih

/-- What `Json.escapedChar` makes of a character stands on one line, as a line feed is escaped by a
letter. -/
theorem feed_not_mem_escapedChar (c : Char) : '\n' ∉ Json.escapedChar c := by
  unfold Json.escapedChar
  split_ifs with hq hb hn hr ht h8 h12 h32
  all_goals try decide
  · obtain ⟨-, -, h1⟩ := hexDigit_spec (Nat.mod_lt (c.toNat / 16 / 16 / 16) (by decide : 0 < 16))
    obtain ⟨-, -, h2⟩ := hexDigit_spec (Nat.mod_lt (c.toNat / 16 / 16) (by decide : 0 < 16))
    obtain ⟨-, -, h3⟩ := hexDigit_spec (Nat.mod_lt (c.toNat / 16) (by decide : 0 < 16))
    obtain ⟨-, -, h4⟩ := hexDigit_spec (Nat.mod_lt c.toNat (by decide : 0 < 16))
    simp [Text.hexOnto, h1.symm, h2.symm, h3.symm, h4.symm]
  · simpa using fun h => hn h.symm

/-- What `Json.quote` writes `IsToken`, whatever the text and whatever follows. -/
theorem isToken_quote (s : String) :
    IsToken never .string '"' (s.toList.flatMap Json.escapedChar ++ ['"']) := by
  refine isToken_string (.inl rfl) (isBody_flatMap s.toList) fun hmem => ?_
  obtain ⟨c, -, hc⟩ := List.mem_flatMap.mp hmem
  exact feed_not_mem_escapedChar c hc

end SchemaForge.Source
