import SchemaForge.Proofs.Source.Frame
import SchemaForge.Proofs.Source.Recognition

/-!
# Lexemes

`IsLexeme l w` says what the texts of blanks, comments and tokens are, without regard to how a scan
finds them. A lexeme `Leads` a text if it stands in front and no longer one does. A scan takes the
lexeme that leads what is left of the text (`lexeme?_eq_some_iff`), and it gets stuck only where no
lexeme stands in front (`lexeme?_eq_none_iff`).
-/

namespace SchemaForge.Source

open Number (IsRun IsExponent IsMagnitude)

/-! ## The texts of lexemes -/

/-- The text `w` is a lexeme of the kind `l`, whatever stands behind it and however a scan finds
it. -/
inductive IsLexeme : Lexeme → List Char → Prop
  /-- Blanks in a row. -/
  | blanks {c : Char} {cs : List Char} (hc : Text.isBlank c = true)
      (h : ∀ d ∈ cs, Text.isBlank d = true) : IsLexeme .blank (c :: cs)
  /-- A comment on one line. -/
  | lineComment {cs : List Char} (h : '\n' ∉ cs) : IsLexeme .comment ('/' :: '/' :: cs)
  /-- A comment up to the first end mark. -/
  | blockComment {cs : List Char} (h : IsOpen (cs ++ ['*'])) :
      IsLexeme .comment ('/' :: '*' :: (cs ++ ['*', '/']))
  /-- A string. -/
  | string {q : Char} {body : List Char} (hq : q = '"' ∨ q = '\'') (h : IsBody q body) :
      IsLexeme (.token .string) (q :: (body ++ [q]))
  /-- A number. -/
  | number {cs : List Char} (h : IsNumber cs) : IsLexeme (.token .number) cs
  /-- A name. -/
  | name {c : Char} {cs : List Char} (hc : isNameStart c = true)
      (h : ∀ d ∈ cs, isNamePart d = true) : IsLexeme (.token .name) (c :: cs)
  /-- A mark. -/
  | mark {c : Char} (h : c ∈ marks) : IsLexeme (.token .punctuation) [c]

/-- A lexeme that stands in front of a text in which no longer one does. -/
structure Leads (l : Lexeme) (w cs : List Char) : Prop where
  /-- It stands in front. -/
  front : w <+: cs
  /-- It is a lexeme. -/
  isLexeme : IsLexeme l w
  /-- No lexeme in front is longer. -/
  longest : ∀ {l' : Lexeme} {w' : List Char}, w' <+: cs → IsLexeme l' w' → w'.length ≤ w.length

variable {c q : Char} {cs rest w w' : List Char} {p : Char → Bool} {n : ℕ} {l l' : Lexeme}

/-! ## Counting -/

/-- The number of leading characters that pass a test is the length of the text at most. -/
theorem countWhile_le (p : Char → Bool) (cs : List Char) : countWhile p cs ≤ cs.length :=
  (List.takeWhile_prefix p).length_le

/-- Leading characters that pass a test are counted, whatever follows. -/
theorem length_le_countWhile (h : ∀ c ∈ w, p c = true) (rest : List Char) :
    w.length ≤ countWhile p (w ++ rest) := by
  rw [countWhile, List.takeWhile_append_of_pos h, List.length_append]
  exact Nat.le_add_right _ _

/-! ## Strings and comments -/

/-- What `stringTail?` measures is a body and its closing quote. -/
theorem exists_body (h : stringTail? q cs = some n) :
    ∃ body more, cs = body ++ q :: more ∧ n = body.length + 1 ∧ IsBody q body := by
  -- The cases are those of the scanner: the end of the text, an escape, the quote, a line feed, and
  -- any other character.
  fun_induction stringTail? q cs generalizing n with
  | case1 => cases h
  | case2 c rest ih =>
    obtain ⟨m, hm, rfl⟩ := Option.map_eq_some_iff.mp h
    obtain ⟨body, more, rfl, rfl, hbody⟩ := ih hm
    exact ⟨'\\' :: c :: body, more, rfl, rfl, .escaped hbody⟩
  | case3 rest =>
    cases h
    exact ⟨[], rest, rfl, rfl, .nil⟩
  | case4 => cases h
  | case5 c rest _ hq hc ih =>
    obtain ⟨m, hm, rfl⟩ := Option.map_eq_some_iff.mp h
    obtain ⟨body, more, rfl, rfl, hbody⟩ := ih hm
    rw [not_or] at hc
    exact ⟨c :: body, more, rfl, rfl, .plain hq hc.2 hc.1 hbody⟩

/-- What `commentTail?` measures is a text without end mark, and the end mark. -/
theorem exists_isOpen (h : commentTail? cs = some n) :
    ∃ body more, cs = body ++ '*' :: '/' :: more ∧ n = body.length + 2 ∧
      IsOpen (body ++ ['*']) := by
  fun_induction commentTail? cs generalizing n with
  | case1 => cases h
  | case2 rest =>
    cases h
    exact ⟨[], rest, rfl, rfl, List.isChain_singleton _⟩
  | case3 c rest hne ih =>
    obtain ⟨m, hm, rfl⟩ := Option.map_eq_some_iff.mp h
    obtain ⟨body, more, rfl, rfl, hopen⟩ := ih hm
    refine ⟨c :: body, more, rfl, rfl, List.isChain_cons.mpr ⟨?_, hopen⟩⟩
    -- If a star and a slash stood here, the comment would have ended with them.
    rintro d hd rfl rfl
    cases body with
    | nil => cases hd
    | cons d body =>
      cases hd
      exact hne _ rfl rfl

/-! ## Numbers -/

/-- An exponent in front is measured in full by `exponentLength`, if not more. -/
theorem length_le_exponentLength (h : IsExponent w) (rest : List Char) :
    w.length ≤ exponentLength (w ++ rest) := by
  cases h with
  | none => exact Nat.zero_le _
  | @some mark sign ds hm hs hd =>
    have hcount := length_le_countWhile hd.isDigit rest
    have hpos : ds.length ≠ 0 := fun h0 => hd.ne_nil (List.length_eq_zero_iff.mp h0)
    have hnot : countWhile Text.isDigit (ds ++ rest) ≠ 0 := by omega
    rcases hs with rfl | rfl | rfl
    -- Without a sign the first digit must not be taken for one.
    · obtain ⟨d, more, rfl⟩ := List.exists_cons_of_ne_nil hd.ne_nil
      have hdigit := hd.isDigit d List.mem_cons_self
      have hplus : d ≠ '+' := Number.ne_of_isDigit hdigit (by decide)
      have hminus : d ≠ '-' := Number.ne_of_isDigit hdigit (by decide)
      simp only [List.cons_append] at hnot hcount
      simp [exponentLength, hm, hplus, hminus, hnot] at hcount ⊢
      omega
    · simp [exponentLength, hm, hnot]
      omega
    · simp [exponentLength, hm, hnot]
      omega

/-- Digits and an exponent in front are measured in full, one after the other. -/
theorem length_le_digits {ds exponent : List Char} (hd : ∀ c ∈ ds, Text.isDigit c = true)
    (he : IsExponent exponent) (rest : List Char) :
    (ds ++ exponent).length ≤ countWhile Text.isDigit (ds ++ (exponent ++ rest)) + exponentLength
      ((ds ++ (exponent ++ rest)).drop (countWhile Text.isDigit (ds ++ (exponent ++ rest)))) := by
  by_cases hnil : exponent = []
  · have hcount := length_le_countWhile hd (exponent ++ rest)
    rw [hnil, List.append_nil]
    rw [hnil] at hcount
    omega
  · -- the mark of the exponent ends the digits
    have hstop : Avoids Text.isDigit (exponent ++ rest) := by
      cases he with
      | none => exact absurd rfl hnil
      | some hm => rcases hm with rfl | rfl <;> exact avoids_cons (by decide)
    have hexponent := length_le_exponentLength he rest
    rw [countWhile_append hd hstop, List.drop_left, List.length_append]
    omega

/-- A number without sign in front is measured in full by `magnitudeLength?`, if not more. -/
theorem exists_magnitudeLength? (h : IsMagnitude w) (rest : List Char) :
    ∃ n, magnitudeLength? (w ++ rest) = some n ∧ w.length ≤ n := by
  cases h with
  | @whole ds exponent hd he =>
    have hlength := length_le_digits hd.isDigit he rest
    have hcount := length_le_countWhile hd.isDigit (exponent ++ rest)
    have hpos : ds.length ≠ 0 := fun h0 => hd.ne_nil (List.length_eq_zero_iff.mp h0)
    rw [← List.append_assoc] at hlength hcount
    generalize ds ++ exponent ++ rest = cs at *
    have hnot : countWhile Text.isDigit cs ≠ 0 := by omega
    rw [magnitudeLength?, mantissaLength?]
    dsimp only
    split
    · rename_i more hmore
      rw [if_neg fun h => hnot h.1, Option.map_some]
      rw [hmore] at hlength
      -- A point behind the digits is measured as well, so more may be found than the number.
      have hnone : exponentLength ('.' :: more) = 0 := rfl
      exact ⟨_, rfl, by omega⟩
    · rw [if_neg hnot, Option.map_some]
      exact ⟨_, rfl, hlength⟩
  | @pointed ds part exponent hd hp hne he =>
    have hlength := length_le_digits hp he rest
    have hpart := length_le_countWhile hp (exponent ++ rest)
    have hstop : Avoids Text.isDigit ('.' :: (part ++ (exponent ++ rest))) :=
      avoids_cons (by decide)
    have hcount := countWhile_append hd hstop
    have hsome : ¬(ds.length = 0 ∧ countWhile Text.isDigit (part ++ (exponent ++ rest)) = 0) := by
      rintro ⟨h0, h0'⟩
      rw [h0'] at hpart
      exact hne.elim (fun hne => hne (List.length_eq_zero_iff.mp h0)) fun hne =>
        hne (List.length_eq_zero_iff.mp (Nat.le_zero.mp hpart))
    have hdrop : (ds ++ '.' :: (part ++ (exponent ++ rest))).drop
        (ds.length + 1 + countWhile Text.isDigit (part ++ (exponent ++ rest)))
          = (part ++ (exponent ++ rest)).drop
              (countWhile Text.isDigit (part ++ (exponent ++ rest))) := by
      rw [Nat.add_assoc, ← List.drop_drop, List.drop_left, Nat.add_comm 1, List.drop_succ_cons]
    rw [List.append_assoc, List.cons_append, List.append_assoc, magnitudeLength?,
      mantissaLength?_of_point hcount List.drop_left, if_neg hsome, Option.map_some, hdrop]
    refine ⟨_, rfl, ?_⟩
    simp only [List.length_append, List.length_cons] at hlength ⊢
    omega

/-- The function `exponentLength` measures a text in front and goes no further than the text. -/
theorem exponentLength_le (cs : List Char) : exponentLength cs ≤ cs.length := by
  cases cs with
  | nil => exact Nat.le_refl 0
  | cons c rest =>
    unfold exponentLength
    dsimp only
    split_ifs with hm hn
    · exact Nat.zero_le _
    -- With a sign or without one, the digits are behind it.
    · have hlength : ∀ sign, countWhile Text.isDigit (rest.drop sign) ≠ 0 →
          1 + sign + countWhile Text.isDigit (rest.drop sign) ≤ rest.length + 1 := by
        intro sign hne
        have hcount := countWhile_le Text.isDigit (rest.drop sign)
        rw [List.length_drop] at hcount
        omega
      exact hlength _ hn
    · exact Nat.zero_le _

/-- The number that `magnitudeLength?` finds is no longer than the text. -/
theorem magnitudeLength?_le (h : magnitudeLength? cs = some n) : n ≤ cs.length := by
  obtain ⟨m, hm, rfl⟩ := Option.map_eq_some_iff.mp h
  have hexponent := exponentLength_le (cs.drop m)
  have hcount := countWhile_le Text.isDigit cs
  -- The exponent is measured in what is behind the mantissa, so only the latter is left to bound.
  suffices hle : m ≤ cs.length by
    rw [List.length_drop] at hexponent
    omega
  unfold mantissaLength? at hm
  dsimp only at hm
  split at hm
  · rename_i rest hrest
    have hpart := countWhile_le Text.isDigit rest
    have hlength := congrArg List.length hrest
    rw [List.length_drop, List.length_cons] at hlength
    split_ifs at hm
    cases hm
    omega
  · split_ifs at hm
    cases hm
    exact hcount

/-! ## What begins with a character -/

/-- Two slashes begin a comment, which `lexeme?` ends with the line. -/
theorem lexeme?_lineComment (rest : List Char) :
    lexeme? '/' ('/' :: rest) = some (.comment, 1 + countWhile (· ≠ '\n') rest) := rfl

/-- A slash and a star begin a comment up to the first end mark, and nothing if there is none. -/
theorem lexeme?_blockComment (rest : List Char) :
    lexeme? '/' ('*' :: rest) = (commentTail? rest).map fun n => (.comment, 1 + n) := rfl

/-- Behind a minus sign `lexeme?` finds a number or nothing. -/
theorem lexeme?_minus (rest : List Char) :
    lexeme? '-' rest = (magnitudeLength? rest).map fun n => (.token .number, n) := rfl

/-- Where `magnitudeLength?` measures a number, the number is the lexeme. -/
theorem lexeme?_of_magnitudeLength? (h : magnitudeLength? (c :: rest) = some n) :
    lexeme? c rest = some (.token .number, n - 1) := by
  obtain ⟨d, more, hd, hdigit⟩ := (isMagnitude_take h).exists_cons
  obtain rfl : c = d := by
    cases n with
    | zero => cases hd
    | succ n => exact (List.cons.inj hd).1
  have hblank : Text.isBlank c = false := by
    rcases hdigit with hdigit | rfl
    · exact Number.isBlank_of_isDigit hdigit
    · rfl
  -- None of the tests that come before the one for numbers applies to a digit or a point.
  have hne : ∀ d ∈ ['/', '"', '\'', '-'], c ≠ d := by
    rintro d hd rfl
    simp only [List.mem_cons, List.not_mem_nil, or_false] at hd
    rcases hd with rfl | rfl | rfl | rfl <;> revert hdigit <;> decide
  unfold lexeme?
  rw [if_neg (by simp [hblank]), if_neg (hne '/' (by simp)),
    if_neg (by simp [hne '"' (by simp), hne '\'' (by simp)]), if_neg (hne '-' (by simp)), h]

/-- At a character that begins a name `lexeme?` finds the name, as long as it goes on. -/
theorem lexeme?_of_isNameStart (h : isNameStart c = true) (rest : List Char) :
    lexeme? c rest = some (.token .name, countWhile isNamePart rest) := by
  obtain ⟨hblank, hdigit, hne⟩ := isNameStart_spec h
  unfold lexeme?
  rw [if_neg (by simp [hblank]), if_neg (hne '/' (by simp)),
    if_neg (by simp [hne '"' (by simp), hne '\'' (by simp)]), if_neg (hne '-' (by simp)),
    magnitudeLength?_eq_none hdigit (hne '.' (by simp))]
  dsimp only
  rw [if_pos h]

/-- A mark is a lexeme of one character, where no number begins with it. -/
theorem lexeme?_of_mark (h : c ∈ marks) (hnone : magnitudeLength? (c :: rest) = none) :
    lexeme? c rest = some (.token .punctuation, 0) := by
  obtain ⟨-, hblank, hslash, hquote, hminus, hname⟩ := mark_spec c h
  unfold lexeme?
  rw [if_neg (by simp [hblank]), if_neg hslash, if_neg hquote, if_neg hminus, hnone]
  dsimp only
  rw [if_neg (by simp [hname]), if_pos (by simpa using h)]

/-! ## The longest lexeme -/

/-- What `lexeme?` finds stands in front and is a lexeme of its kind. The cases are those of the
scanner by the first character. -/
theorem isLexeme_of_lexeme? (h : lexeme? c rest = some (l, n)) :
    n ≤ rest.length ∧ IsLexeme l (c :: rest.take n) := by
  have hnumber : l = .token .number → IsLexeme l (c :: rest.take n) := by
    rintro rfl
    exact .number (isNumber_of_lexeme? h)
  -- The forms are tried in the order of the scanner: blanks, comments, strings, numbers, names and
  -- marks.
  unfold lexeme? at h
  split at h
  · rename_i hblank
    cases h
    refine ⟨countWhile_le _ _, .blanks hblank fun d hd => ?_⟩
    rw [take_countWhile] at hd
    exact List.all_eq_true.mp List.all_takeWhile d hd
  split at h
  · rename_i hslash
    subst hslash
    split at h
    · rename_i rest
      cases h
      rw [Nat.add_comm 1, List.take_succ_cons, take_countWhile]
      refine ⟨Nat.succ_le_succ (countWhile_le _ _), .lineComment fun hfeed => ?_⟩
      exact absurd (List.all_eq_true.mp List.all_takeWhile _ hfeed) (by decide)
    · rename_i rest
      obtain ⟨m, hm, heq⟩ := Option.map_eq_some_iff.mp h
      cases heq
      obtain ⟨body, more, rfl, rfl, hopen⟩ := exists_isOpen hm
      refine ⟨by simp; omega, ?_⟩
      have htake : ('*' :: (body ++ '*' :: '/' :: more)).take (1 + (body.length + 2))
          = '*' :: (body ++ ['*', '/']) := by
        rw [Nat.add_comm 1, List.take_succ_cons, List.take_length_add_append]
        rfl
      rw [htake]
      exact .blockComment hopen
    · cases h
  split at h
  · rename_i hquote
    obtain ⟨m, hm, heq⟩ := Option.map_eq_some_iff.mp h
    cases heq
    obtain ⟨body, more, rfl, rfl, hbody⟩ := exists_body hm
    refine ⟨by simp, ?_⟩
    rw [List.take_length_add_append]
    exact .string hquote hbody
  split at h
  · obtain ⟨m, hm, heq⟩ := Option.map_eq_some_iff.mp h
    cases heq
    exact ⟨magnitudeLength?_le hm, hnumber rfl⟩
  split at h
  · rename_i m hm
    cases h
    have hle := magnitudeLength?_le hm
    rw [List.length_cons] at hle
    exact ⟨by omega, hnumber rfl⟩
  split_ifs at h with hname hmark
  · cases h
    refine ⟨countWhile_le _ _, .name hname fun d hd => ?_⟩
    rw [take_countWhile] at hd
    exact List.all_eq_true.mp List.all_takeWhile d hd
  · cases h
    exact ⟨Nat.zero_le _, .mark (by simpa using hmark)⟩

/-- A lexeme has one character at least, which is why scanning comes to an end. -/
theorem IsLexeme.ne_nil (h : IsLexeme l w) : w ≠ [] := by
  cases h with
  | number h =>
    obtain ⟨d, hd, -⟩ := exists_isDigit h
    exact List.ne_nil_of_mem hd
  | _ => exact List.cons_ne_nil _ _

/-- Where a lexeme stands in front, `lexeme?` finds one that is not shorter. If it is not longer
either, then it is of the same kind. -/
theorem IsLexeme.exists_lexeme? (h : IsLexeme l w) (hw : w <+: c :: rest) :
    ∃ l' n, lexeme? c rest = some (l', n) ∧ w.length ≤ n + 1 ∧ (w.length = n + 1 → l' = l) := by
  obtain ⟨more, heq⟩ := hw
  cases h with
  | @blanks d cs hc h =>
    obtain rfl : d = c := (List.cons.inj heq).1
    obtain rfl : cs ++ more = rest := (List.cons.inj heq).2
    refine ⟨_, _, lexeme?_of_isBlank hc _, ?_, fun _ => rfl⟩
    exact Nat.succ_le_succ (length_le_countWhile h more)
  | @lineComment cs h =>
    obtain rfl : '/' = c := (List.cons.inj heq).1
    obtain rfl : '/' :: (cs ++ more) = rest := (List.cons.inj heq).2
    have hall : ∀ d ∈ cs, decide (d ≠ '\n') = true := fun d hd =>
      decide_eq_true fun heq => h (heq ▸ hd)
    have hlength := length_le_countWhile hall more
    refine ⟨_, _, lexeme?_lineComment _, ?_, fun _ => rfl⟩
    rw [List.length_cons, List.length_cons]
    omega
  | @blockComment cs h =>
    obtain rfl : '/' = c := (List.cons.inj heq).1
    obtain rfl : '*' :: (cs ++ '*' :: '/' :: more) = rest := by
      simpa using (List.cons.inj heq).2
    rw [lexeme?_blockComment, commentTail?_append h]
    refine ⟨_, _, rfl, ?_, fun _ => rfl⟩
    simp only [List.length_cons, List.length_append, List.length_nil]
    omega
  | @string q body hq h =>
    obtain rfl : q = c := (List.cons.inj heq).1
    obtain rfl : body ++ q :: more = rest := by
      simpa using (List.cons.inj heq).2
    have hslash : q ≠ '\\' := by rcases hq with rfl | rfl <;> decide
    rw [lexeme?_quote hq, stringTail?_append hslash h]
    exact ⟨_, _, rfl, by simp, fun _ => rfl⟩
  | number h =>
    obtain ⟨negative, magnitude, rfl, h⟩ := h
    obtain ⟨n, hn, hlength⟩ := exists_magnitudeLength? h more
    cases negative with
    | true =>
      obtain rfl : '-' = c := (List.cons.inj heq).1
      obtain rfl : magnitude ++ more = rest := (List.cons.inj heq).2
      rw [lexeme?_minus, hn]
      exact ⟨_, _, rfl, Nat.succ_le_succ hlength, fun _ => rfl⟩
    | false =>
      rw [show magnitude ++ more = c :: rest from heq] at hn
      refine ⟨_, _, lexeme?_of_magnitudeLength? hn, ?_, fun _ => rfl⟩
      show magnitude.length ≤ n - 1 + 1
      omega
  | @name d cs hc h =>
    obtain rfl : d = c := (List.cons.inj heq).1
    obtain rfl : cs ++ more = rest := (List.cons.inj heq).2
    refine ⟨_, _, lexeme?_of_isNameStart hc _, ?_, fun _ => rfl⟩
    exact Nat.succ_le_succ (length_le_countWhile h more)
  | @mark d h =>
    obtain rfl : d = c := (List.cons.inj heq).1
    cases hn : magnitudeLength? (d :: rest) with
    | none => exact ⟨_, _, lexeme?_of_mark h hn, Nat.le_refl 1, fun _ => rfl⟩
    | some n =>
      refine ⟨_, _, lexeme?_of_magnitudeLength? hn, by simp, fun hone => ?_⟩
      -- a number is longer than its point
      obtain ⟨digit, hmem, hdigit⟩ :=
        exists_isDigit (isNumber_of_lexeme? (lexeme?_of_magnitudeLength? hn))
      have hzero : n - 1 = 0 := by
        rw [List.length_singleton] at hone
        omega
      rw [hzero, List.take_zero, List.mem_singleton] at hmem
      rw [hmem, (mark_spec d h).1] at hdigit
      cases hdigit

/-- The function `lexeme?` finds exactly the lexeme that leads the text. -/
theorem lexeme?_eq_some_iff : lexeme? c rest = some (l, n) ↔
    n ≤ rest.length ∧ Leads l (c :: rest.take n) (c :: rest) := by
  constructor
  · intro h
    obtain ⟨hn, hlexeme⟩ := isLexeme_of_lexeme? h
    refine ⟨hn, ⟨?_, hlexeme, fun {l' w'} hw h' => ?_⟩⟩
    · exact List.cons_prefix_cons.mpr ⟨rfl, List.take_prefix n rest⟩
    · obtain ⟨_, _, h'', hle, -⟩ := h'.exists_lexeme? hw
      cases h.symm.trans h''
      rwa [List.length_cons, List.length_take, Nat.min_eq_left hn]
  · rintro ⟨hn, h⟩
    -- what is found is not shorter, and as a lexeme in front it is not longer either
    obtain ⟨l', m, h', hle, hkind⟩ := h.isLexeme.exists_lexeme? h.front
    obtain ⟨hm, hlexeme⟩ := isLexeme_of_lexeme? h'
    have hge := h.longest (List.cons_prefix_cons.mpr ⟨rfl, List.take_prefix m rest⟩) hlexeme
    rw [List.length_cons, List.length_take, Nat.min_eq_left hn] at hle hkind
    simp only [List.length_cons, List.length_take, Nat.min_eq_left hn, Nat.min_eq_left hm] at hge
    obtain rfl : n = m := by omega
    rw [h', hkind rfl]

/-- The function `lexeme?` finds nothing exactly where no lexeme stands in front. -/
theorem lexeme?_eq_none_iff :
    lexeme? c rest = none ↔ ∀ l w, IsLexeme l w → ¬ w <+: c :: rest := by
  constructor
  · intro h l w hlexeme hw
    obtain ⟨_, _, h', -⟩ := hlexeme.exists_lexeme? hw
    cases h.symm.trans h'
  · intro h
    by_contra hne
    obtain ⟨⟨l, n⟩, hsome⟩ := Option.ne_none_iff_exists'.mp hne
    exact h l _ (isLexeme_of_lexeme? hsome).2
      (List.cons_prefix_cons.mpr ⟨rfl, List.take_prefix n rest⟩)

end SchemaForge.Source
