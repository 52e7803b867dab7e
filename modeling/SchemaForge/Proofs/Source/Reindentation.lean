import SchemaForge.Proofs.Source.Partition

/-!
# Texts at a margin

A fragment is reindented to the depth at which it is placed (section 4.2 of the specification). A
text at a margin is the text with blanks behind some of its line feeds (`Indents`), with blanks in
front and with line feeds at its end. None of these changes the tokens. Blanks stay blanks and a
comment stays a comment; any other lexeme stands on one line, and what begins as it does goes on no
further than this line, so it leads the text at the margin as well (`Leads.token_indents`,
`Leads.comment_indents`). What a text `Scans` to is the same for the text at a margin
(`Scans.placed`), also where it is placed as an expression (`tokens_expression_line`).
-/

namespace SchemaForge.Source

variable {c q : Char} {cs ds es w w' body margin text unit : List Char} {l : Lexeme}
  {kind : TokenKind} {ss : List Shape} {pieces : List (Lexeme × List Char)} {ts : List Token}

/-! ## The tokens of a text -/

/-- The text consists of blanks, of comments and of tokens of these shapes, each of which leads what
is left of it. -/
inductive Scans : List Char → List Shape → Prop
  /-- Nothing. -/
  | nil : Scans [] []
  /-- A token in front. -/
  | token {kind : TokenKind} {w cs : List Char} {ss : List Shape}
      (h : Leads (.token kind) w (w ++ cs)) (hs : Scans cs ss) :
      Scans (w ++ cs) ((kind, String.ofList w) :: ss)
  /-- Blanks or a comment in front. -/
  | skip {l : Lexeme} {w cs : List Char} {ss : List Shape} (hl : l = .blank ∨ l = .comment)
      (h : Leads l w (w ++ cs)) (hs : Scans cs ss) : Scans (w ++ cs) ss

/-- A text that is cut to its end scans to the tokens among its pieces. -/
theorem Cut.scans (h : Cut cs pieces []) (position : ℕ) :
    Scans cs ((tokensAt position pieces).map Token.shape) := by
  generalize hrest : [] = rest at h
  induction h generalizing position with
  | stop =>
    subst hrest
    exact .nil
  | @lexeme l w cs rest pieces h _ ih =>
    have hs := ih (position + w.length) hrest
    -- A token is scanned; blanks and comments are passed over.
    cases l with
    | token kind => exact .token h hs
    | blank => exact .skip (.inl rfl) h hs
    | comment => exact .skip (.inr rfl) h hs

/-- A text that scans to tokens can be cut to its end, and they are the tokens among its pieces. -/
theorem Scans.exists_cut (h : Scans cs ss) :
    ∃ pieces, Cut cs pieces [] ∧ ∀ position, (tokensAt position pieces).map Token.shape = ss := by
  induction h with
  | nil => exact ⟨[], .stop fun _ _ h => h.not_nil, fun _ => rfl⟩
  | token h _ ih =>
    obtain ⟨pieces, hcut, hts⟩ := ih
    exact ⟨_, .lexeme h hcut, fun position => congrArg (_ :: ·) (hts _)⟩
  | skip hl h _ ih =>
    obtain ⟨pieces, hcut, hts⟩ := ih
    refine ⟨_, .lexeme h hcut, fun position => ?_⟩
    rcases hl with rfl | rfl
    · exact hts _
    · exact hts _

/-- What a text scans to are its `tokens` without their places. -/
theorem scans_iff : Scans text ss ↔ ∃ ts, tokens text = .ok ts ∧ ts.map Token.shape = ss := by
  constructor
  · intro h
    obtain ⟨pieces, hcut, hts⟩ := h.exists_cut
    refine ⟨tokensAt 0 pieces, ?_, hts 0⟩
    rw [tokens, scan, scanFrom_of_cut hcut]
    rfl
  · rintro ⟨ts, hts, rfl⟩
    obtain ⟨pieces, rest, hcut⟩ := Source.exists_cut text
    rw [tokens, scan, scanFrom_of_cut hcut] at hts
    cases rest with
    | nil =>
      cases hts
      exact hcut.scans 0
    | cons c rest => cases hts

/-! ## Blanks in front -/

/-- The lexeme of blanks consists of them. -/
theorem IsLexeme.isBlank (h : IsLexeme .blank w) : ∀ c ∈ w, Text.isBlank c = true := by
  cases h with
  | blanks hc hcs => exact List.forall_mem_cons.mpr ⟨hc, hcs⟩

/-- The blanks in front of a text lead it (`Leads`), all of them together. -/
theorem leads_takeWhile (hc : Text.isBlank c = true) (cs : List Char) :
    Leads .blank (c :: cs.takeWhile Text.isBlank) (c :: cs) := by
  have h := (lexeme?_eq_some_iff.mp (lexeme?_of_isBlank hc cs)).2
  rwa [take_countWhile] at h

/-- Of two lexemes that lead one text, one is the other, in kind and in text. -/
theorem Leads.unique {l' : Lexeme} (h : Leads l w (c :: cs)) (h' : Leads l' w' (c :: cs)) :
    l = l' ∧ w = w' := by
  -- both stand in front, and neither is longer than the other one
  have hw : w = w' := by
    have hlength : w.length = w'.length :=
      Nat.le_antisymm (h'.longest h.front h.isLexeme) (h.longest h'.front h'.isLexeme)
    exact (List.prefix_of_prefix_length_le h.front h'.front hlength.le).eq_of_length hlength
  subst hw
  obtain ⟨d, tail, rfl⟩ := List.exists_cons_of_ne_nil h.isLexeme.ne_nil
  obtain ⟨more, heq⟩ := h.front
  rw [← heq] at h h'
  obtain ⟨hkind, -⟩ := Prod.mk.inj (Option.some.inj (h.lexeme?_eq.symm.trans h'.lexeme?_eq))
  exact ⟨hkind, rfl⟩

/-- The blanks in front of a text can be dropped without a change of its tokens. -/
theorem Scans.dropBlanks (h : Scans cs ss) : Scans (cs.dropWhile Text.isBlank) ss := by
  cases hcs : cs with
  | nil =>
    subst hcs
    exact h
  | cons c rest =>
    by_cases hc : Text.isBlank c = true
    · -- the blanks are the lexeme in front, so the rest is what the text scans to behind it
      rw [List.dropWhile_cons_of_pos hc]
      have hblank := leads_takeWhile hc rest
      have hsplit := List.takeWhile_append_dropWhile (p := Text.isBlank) (l := rest)
      cases h with
      | nil => cases hcs
      | token h =>
        rw [hcs] at h
        cases (h.unique hblank).1
      | skip _ h hs =>
        rw [hcs] at h
        rw [(h.unique hblank).2, List.cons_append] at hcs
        have htail := (List.cons.inj hcs).2.trans hsplit.symm
        rwa [← List.append_cancel_left htail]
    · rw [List.dropWhile_cons_of_neg hc, ← hcs]
      exact h

/-- Blanks may stand in front of a text without a change of its tokens. -/
theorem Scans.blanks (hw : ∀ c ∈ w, Text.isBlank c = true) (h : Scans cs ss) :
    Scans (w ++ cs) ss := by
  cases w with
  | nil => exact h
  | cons c w =>
    -- the text may go on with blanks, and then these belong to the same run
    have hlead := leads_takeWhile (hw c List.mem_cons_self) (w ++ cs)
    have hdrop : (w ++ cs).dropWhile Text.isBlank = cs.dropWhile Text.isBlank :=
      List.dropWhile_append_of_pos fun d hd => hw d (List.mem_cons_of_mem c hd)
    have hsplit : c :: w ++ cs
        = c :: (w ++ cs).takeWhile Text.isBlank ++ cs.dropWhile Text.isBlank := by
      rw [← hdrop, List.cons_append, List.cons_append, List.takeWhile_append_dropWhile]
    rw [← List.cons_append, hsplit] at hlead
    rw [hsplit]
    exact .skip (.inl rfl) hlead h.dropBlanks

/-! ## Blanks behind line feeds -/

/-- The second text is the first one with blanks behind some of its line feeds. -/
inductive Indents : List Char → List Char → Prop
  /-- Nothing. -/
  | nil : Indents [] []
  /-- A character that is no line feed. -/
  | char {c : Char} {cs ds : List Char} (hc : c ≠ '\n') (h : Indents cs ds) :
      Indents (c :: cs) (c :: ds)
  /-- A line feed, and blanks behind it. -/
  | feed {blanks cs ds : List Char} (hb : ∀ c ∈ blanks, Text.isBlank c = true)
      (h : Indents cs ds) : Indents ('\n' :: cs) ('\n' :: (blanks ++ ds))

/-- Two texts that are indented side by side are indented together. -/
theorem Indents.append (h : Indents cs ds) (hw : Indents w w') : Indents (cs ++ w) (ds ++ w') := by
  induction h with
  | nil => exact hw
  | char hc _ ih => exact .char hc ih
  | feed hb _ ih =>
    rw [List.cons_append, List.cons_append, List.append_assoc]
    exact .feed hb ih

/-- What comes of a text in two parts consists of what comes of the one and of what comes of the
other. -/
theorem Indents.of_append (h : Indents (w ++ cs) es) :
    ∃ w' ds, es = w' ++ ds ∧ Indents w w' ∧ Indents cs ds := by
  induction w generalizing es with
  | nil => exact ⟨[], es, rfl, .nil, h⟩
  | cons c w ih =>
    cases h with
    | char hc h =>
      obtain ⟨w', ds, rfl, hw, hcs⟩ := ih h
      exact ⟨_, ds, rfl, .char hc hw, hcs⟩
    | feed hb h =>
      obtain ⟨w', ds, rfl, hw, hcs⟩ := ih h
      exact ⟨_, ds, by rw [List.cons_append, List.append_assoc], .feed hb hw, hcs⟩

/-- A text on one line stays as it is, since blanks come behind line feeds only. -/
theorem Indents.eq_of_not_mem (h : Indents cs ds) (hfeed : '\n' ∉ cs) : ds = cs := by
  induction h with
  | nil => rfl
  | char _ _ ih => rw [ih fun hmem => hfeed (List.mem_cons_of_mem _ hmem)]
  | feed => exact absurd List.mem_cons_self hfeed

/-- A text without line feeds is indented as it is. -/
theorem indents_self (hfeed : '\n' ∉ cs) : Indents cs cs := by
  induction cs with
  | nil => exact .nil
  | cons c cs ih =>
    rw [List.mem_cons, not_or] at hfeed
    exact .char (fun hc => hfeed.1 hc.symm) (ih hfeed.2)

/-- Blanks stay blanks when they are indented, since a margin consists of them. -/
theorem Indents.isBlank (h : Indents cs ds) (hcs : ∀ c ∈ cs, Text.isBlank c = true) :
    ∀ c ∈ ds, Text.isBlank c = true := by
  induction h with
  | nil => exact hcs
  | char _ _ ih =>
    rw [List.forall_mem_cons] at hcs ⊢
    exact ⟨hcs.1, ih hcs.2⟩
  | feed hb _ ih =>
    rw [List.forall_mem_cons] at hcs
    rw [List.forall_mem_cons, List.forall_mem_append]
    exact ⟨hcs.1, hb, ih hcs.2⟩

/-- Indenting does not change the first character, as nothing is put in front of the text. -/
theorem Indents.head?_eq (h : Indents cs ds) : ds.head? = cs.head? := by
  cases h <;> rfl

/-- A text that `IsOpen` stays so when it is indented: blanks at line starts make no end mark of a
comment. -/
theorem Indents.isOpen (h : Indents cs ds) (hopen : IsOpen cs) : IsOpen ds := by
  induction h with
  | nil => exact hopen
  | char _ h ih =>
    obtain ⟨hhead, htail⟩ := List.isChain_cons.mp hopen
    exact List.isChain_cons.mpr ⟨fun d hd => hhead d (h.head?_eq ▸ hd), ih htail⟩
  | @feed blanks cs ds hb _ ih =>
    -- no character of an end mark is a blank, so none comes about within or behind the blanks
    have hblanks : ∀ c ∈ '\n' :: blanks, Text.isBlank c = true :=
      List.forall_mem_cons.mpr ⟨by decide, hb⟩
    have hslash : '/' ∉ '\n' :: blanks := fun hmem => absurd (hblanks _ hmem) (by decide)
    have hstar : ('\n' :: blanks).getLast? ≠ some '*' := fun hlast =>
      absurd (hblanks _ (List.mem_of_getLast? hlast)) (by decide)
    rw [← List.cons_append]
    exact (isOpen_of_not_mem hslash).append (ih hopen.tail) (.inl hstar)

/-- What stands on one line in front of the new text stands in front of the old one. -/
theorem Indents.front_of_not_mem (h : Indents cs ds) (hw : w <+: ds ++ ['\n'])
    (hfeed : '\n' ∉ w) : w <+: cs := by
  induction w generalizing cs ds with
  | nil => exact List.nil_prefix
  | cons d w ih =>
    rw [List.mem_cons, not_or] at hfeed
    cases h with
    | char _ h =>
      obtain ⟨rfl, htail⟩ := List.cons_prefix_cons.mp hw
      exact List.cons_prefix_cons.mpr ⟨rfl, ih h htail hfeed.2⟩
    | _ =>
      -- here the new text begins with a line feed
      obtain ⟨rfl, -⟩ := List.cons_prefix_cons.mp hw
      exact absurd rfl hfeed.1

/-! ## Lexemes on several lines -/

/-- A text begins as a lexeme with a line feed in it may begin: with a blank, as a comment or with a
quote. -/
inductive Breaks : List Char → Prop
  /-- A blank. -/
  | blank {c : Char} {cs : List Char} (hc : Text.isBlank c = true) : Breaks (c :: cs)
  /-- The opening mark of a comment. -/
  | comment {cs : List Char} : Breaks ('/' :: '*' :: cs)
  /-- A quote. -/
  | quote {q : Char} {cs : List Char} (hq : q = '"' ∨ q = '\'') : Breaks (q :: cs)

/-- A text begins so if a lexeme with a line feed in it stands in front of it. -/
theorem IsLexeme.breaks (h : IsLexeme l w) (hfeed : '\n' ∈ w) (cs : List Char) :
    Breaks (w ++ cs) := by
  -- A line feed is in blanks, in block comments and in strings, and in no other lexeme.
  cases h with
  | blanks hc => exact .blank hc
  | lineComment h => simp [h] at hfeed
  | blockComment => exact .comment
  | string hq => exact .quote hq
  | number h =>
    obtain ⟨negative, magnitude, rfl, h⟩ := h
    rcases List.mem_append.mp hfeed with hmem | hmem
    · cases negative <;> simp [Number.signChars] at hmem
    · exact absurd (h.mem hmem) (by decide)
  | name hc h =>
    rcases List.mem_cons.mp hfeed with rfl | hmem
    · exact absurd hc (by decide)
    · exact absurd (h _ hmem) (by decide)
  | mark h =>
    rw [← List.mem_singleton.mp hfeed] at h
    exact absurd h (by decide)

/-- A token that is no string begins with no blank, no slash and no quote. -/
theorem IsLexeme.exists_cons (h : IsLexeme (.token kind) w) (hkind : kind ≠ .string) :
    ∃ c tail, w = c :: tail ∧ Text.isBlank c = false ∧ c ≠ '/' ∧ ¬(c = '"' ∨ c = '\'') := by
  cases h with
  | string => exact absurd rfl hkind
  -- A number begins with its sign, a digit or a point.
  | number h =>
    obtain ⟨negative, magnitude, rfl, h⟩ := h
    cases negative with
    | true => exact ⟨'-', magnitude, rfl, by decide⟩
    | false =>
      obtain ⟨c, tail, rfl, hdigit | rfl⟩ := h.exists_cons
      · have hne : ∀ d, Text.isDigit d = false → c ≠ d := fun d => Number.ne_of_isDigit hdigit
        exact ⟨c, tail, rfl, Number.isBlank_of_isDigit hdigit, hne _ (by decide),
          not_or.mpr ⟨hne _ (by decide), hne _ (by decide)⟩⟩
      · exact ⟨'.', tail, rfl, by decide⟩
  | name hc =>
    obtain ⟨hblank, -, hne⟩ := isNameStart_spec hc
    exact ⟨_, _, rfl, hblank, hne _ (by simp), not_or.mpr ⟨hne _ (by simp), hne _ (by simp)⟩⟩
  | mark h =>
    obtain ⟨-, hblank, hslash, hquote, -⟩ := mark_spec _ h
    exact ⟨_, _, rfl, hblank, hslash, hquote⟩

/-- A token that is no string does not begin like a lexeme with a line feed in it. -/
theorem IsLexeme.not_breaks (h : IsLexeme (.token kind) w) (hkind : kind ≠ .string)
    (cs : List Char) : ¬ Breaks (w ++ cs) := by
  obtain ⟨c, tail, rfl, hblank, hslash, hquote⟩ := h.exists_cons hkind
  rw [List.cons_append]
  generalize tail ++ cs = more
  intro h
  cases h with
  | blank hc => exact absurd (hc.symm.trans hblank) (by decide)
  | comment => exact hslash rfl
  | quote hq => exact hquote hq

/-- A token that is no string stands on one line: no line feed is in it. -/
theorem IsLexeme.feed_not_mem (h : IsLexeme (.token kind) w) (hkind : kind ≠ .string) :
    '\n' ∉ w := fun hmem => h.not_breaks hkind [] (h.breaks hmem [])

/-- A lexeme that does not begin like one with a line feed in it leads the new text as it leads the
old one: what could be longer would stand on this line, and so in the old text. -/
theorem Leads.indents (h : Leads l w (w ++ cs)) (hs : Indents cs ds) (hfeed : '\n' ∉ w)
    (hbreaks : ∀ more, ¬ Breaks (w ++ more)) : Leads l w (w ++ (ds ++ ['\n'])) := by
  -- another lexeme in front of the new text stands on one line, so in front of the old one too
  refine ⟨List.prefix_append _ _, h.isLexeme, fun {l' w'} hw' h' => ?_⟩
  have hfeed' : '\n' ∉ w' := by
    obtain ⟨more, heq⟩ := hw'
    exact fun hmem => hbreaks _ (heq ▸ h'.breaks hmem more)
  rw [← List.append_assoc] at hw'
  exact h.longest (((indents_self hfeed).append hs).front_of_not_mem hw' hfeed') h'

/-- What `lexeme?` finds at the front of a text `Leads` it. -/
theorem leads_of_lexeme? {tail : List Char}
    (h : lexeme? c (tail ++ cs) = some (l, tail.length)) :
    Leads l (c :: tail) (c :: tail ++ cs) := by
  have hlead := (lexeme?_eq_some_iff.mp h).2
  rwa [List.take_left] at hlead

/-- A string leads every text that it stands in front of, since its end is its quote. -/
theorem leads_string (hq : q = '"' ∨ q = '\'') (h : IsBody q body) (rest : List Char) :
    Leads (.token .string) (q :: (body ++ [q])) (q :: (body ++ [q]) ++ rest) := by
  have hne : q ≠ '\\' := by rcases hq with rfl | rfl <;> decide
  refine leads_of_lexeme? ?_
  rw [List.append_assoc, List.singleton_append, lexeme?_quote hq, stringTail?_append hne h,
    List.length_append]
  rfl

/-- A comment up to its end mark leads a text, whatever follows. -/
theorem leads_blockComment (h : IsOpen (body ++ ['*'])) (rest : List Char) :
    Leads .comment ('/' :: '*' :: (body ++ ['*', '/']))
      ('/' :: '*' :: (body ++ ['*', '/']) ++ rest) := by
  refine leads_of_lexeme? ?_
  rw [List.cons_append, List.append_assoc, lexeme?_blockComment]
  show (commentTail? (body ++ '*' :: '/' :: rest)).map _ = _
  rw [commentTail?_append h, Option.map_some, List.length_cons, List.length_append, Nat.add_comm 1]
  rfl

/-- A token on one line leads the indented text as it leads the text before. -/
theorem Leads.token_indents (h : Leads (.token kind) w (w ++ cs)) (hs : Indents cs ds)
    (hfeed : '\n' ∉ w) : Leads (.token kind) w (w ++ (ds ++ ['\n'])) := by
  by_cases hkind : kind = .string
  · subst hkind
    cases h.isLexeme with
    | string hq hbody => exact leads_string hq hbody _
  · exact h.indents hs hfeed (h.isLexeme.not_breaks hkind)

/-- What comes of a comment is a comment, and leads the new text as the comment leads the old
one. -/
theorem Leads.comment_indents (h : Leads .comment w (w ++ cs)) (hw : Indents w w')
    (hs : Indents cs ds) : Leads .comment w' (w' ++ (ds ++ ['\n'])) := by
  cases h.isLexeme with
  | @lineComment body hbody =>
    have hfeed : '\n' ∉ '/' :: '/' :: body := by simp [hbody]
    rw [hw.eq_of_not_mem hfeed]
    -- the line feed behind the new text ends the comment where the old text ends
    refine h.indents hs hfeed fun more hbreaks => ?_
    cases hbreaks with
    | blank hc => exact absurd hc (by decide)
    | quote hq => exact absurd hq (by decide)
  | @blockComment body hopen =>
    have hsplit : ∀ body : List Char, '/' :: '*' :: (body ++ ['*', '/'])
        = ['/', '*'] ++ ((body ++ ['*']) ++ ['/']) := by
      intro body
      rw [List.append_assoc]
      rfl
    -- both marks stand on one line, and only the text between them may have changed
    rw [hsplit] at hw
    obtain ⟨start, _, rfl, hstart, hw⟩ := hw.of_append
    obtain ⟨_, slash, rfl, hw, hslash⟩ := hw.of_append
    have hopen' := hw.isOpen hopen
    obtain ⟨body', star, rfl, -, hstar⟩ := hw.of_append
    cases hstart.eq_of_not_mem (by decide)
    cases hslash.eq_of_not_mem (by decide)
    cases hstar.eq_of_not_mem (by decide)
    rw [← hsplit]
    exact leads_blockComment hopen' _

/-! ## Texts at a margin -/

/-- The new text, with a line feed at its end, scans to the tokens of the old one if no string
stands on several lines. The induction is on `Scans`. -/
theorem Scans.indents (h : Scans cs ss) (hs : Indents cs ds)
    (hstring : ∀ s ∈ ss, s.1 = .string → '\n' ∉ s.2.toList) : Scans (ds ++ ['\n']) ss := by
  -- Each lexeme of the old text goes with its part of the new one.
  induction h generalizing ds with
  | nil =>
    cases hs
    exact Scans.nil.blanks (w := ['\n']) (List.forall_mem_singleton.mpr (by decide))
  | @token kind w cs ss h _ ih =>
    obtain ⟨w', ds, rfl, hw, hs'⟩ := hs.of_append
    have hfeed : '\n' ∉ w := by
      by_cases hkind : kind = .string
      · have hw := hstring _ List.mem_cons_self hkind
        rwa [String.toList_ofList] at hw
      · exact h.isLexeme.feed_not_mem hkind
    rw [hw.eq_of_not_mem hfeed, List.append_assoc]
    exact .token (h.token_indents hs' hfeed)
      (ih hs' fun s hmem => hstring s (List.mem_cons_of_mem _ hmem))
  | @skip l w cs ss hl h _ ih =>
    obtain ⟨w', ds, rfl, hw, hs'⟩ := hs.of_append
    have hrest := ih hs' hstring
    rw [List.append_assoc]
    rcases hl with rfl | rfl
    · exact hrest.blanks (hw.isBlank h.isLexeme.isBlank)
    · exact .skip (.inr rfl) (h.comment_indents hw hs') hrest

/-- What is put behind a line feed, nothing or a margin of blanks, is blank. -/
theorem isBlank_start {start : List Char} (hm : ∀ c ∈ margin, Text.isBlank c = true)
    (h : start = [] ∨ start = margin) : ∀ c ∈ start, Text.isBlank c = true := by
  rcases h with rfl | rfl
  · exact fun _ hmem => absurd hmem List.not_mem_nil
  · exact hm

/-- A text at a margin of blanks is the text with blanks behind its line feeds, and one line feed
more. -/
theorem exists_indents (hm : ∀ c ∈ margin, Text.isBlank c = true) (cs : List Char) :
    ∃ ds, hanging margin (Text.lines cs) = ds ++ ['\n'] ∧ Indents cs ds := by
  induction cs with
  | nil => exact ⟨[], rfl, .nil⟩
  | cons c cs ih =>
    obtain ⟨ds, hds, h⟩ := ih
    -- Only behind a line feed is something inserted, and this is the margin or nothing.
    by_cases hc : c = '\n'
    · subst hc
      obtain ⟨start, hstart, heq⟩ := exists_hanging margin (lines_ne_nil cs)
      refine ⟨'\n' :: (start ++ ds), ?_, .feed (isBlank_start hm hstart) h⟩
      rw [Text.lines, if_pos rfl, hanging, heq, hds]
      simp
    · refine ⟨c :: ds, ?_, .char hc h⟩
      have hone : hanging margin (Text.lines ([c] ++ cs))
          = [c] ++ hanging margin (Text.lines cs) :=
        hanging_append margin fun hmem => hc (List.mem_singleton.mp hmem).symm
      rw [← List.singleton_append, hone, hds]
      rfl

/-- A text placed at a level scans to its tokens, if no string among them stands on several
lines. -/
theorem Scans.placed (h : Scans text ss) (hunit : ∀ c ∈ unit, Text.isBlank c = true)
    (hstring : ∀ s ∈ ss, s.1 = .string → '\n' ∉ s.2.toList) (level : ℤ) :
    Scans (({ level := level, unit := unit } : Fragment).line text).text ss := by
  have hm : ∀ c ∈ ({ level := level, unit := unit } : Fragment).margin,
      Text.isBlank c = true := fun c hc => hunit c (mem_unit_of_mem_margin hc)
  obtain ⟨start, hstart, heq⟩ := exists_hanging _ (lines_ne_nil text)
  obtain ⟨ds, hds, hindents⟩ := exists_indents hm text
  rw [Fragment.text, Fragment.line, List.nil_append, heq, hds]
  exact (h.indents hindents hstring).blanks (isBlank_start hm hstart)

/-! ## Line feeds at the end -/

/-- A lexeme that `Leads` a text leads every front of it that is no shorter than the lexeme. -/
theorem Leads.of_front (h : Leads l w (w ++ cs)) (hds : ds <+: cs) : Leads l w (w ++ ds) :=
  ⟨List.prefix_append w ds, h.isLexeme, fun hw' h' =>
    h.longest (hw'.trans ((List.prefix_append_right_inj w).mpr hds)) h'⟩

/-- A lexeme that ends in a line feed is a run of blanks, so that `dropFinalFeeds` takes no token
apart. -/
theorem IsLexeme.eq_blank (h : IsLexeme l (cs ++ ['\n'])) : l = .blank := by
  generalize hw : cs ++ ['\n'] = w at h
  have hlast : w.getLast? = some '\n' := by rw [← hw, List.getLast?_concat]
  have hmem : '\n' ∈ w := List.mem_of_getLast? hlast
  -- A comment or a token that ends with a line feed would have it within.
  cases l with
  | blank => rfl
  | comment =>
    cases h with
    | lineComment h => simp [h] at hmem
    | blockComment => simp [List.getLast?_cons] at hlast
  | token kind =>
    by_cases hkind : kind = .string
    · subst hkind
      cases h with
      | string hq => rcases hq with rfl | rfl <;> simp [List.getLast?_cons] at hlast
    · exact absurd hmem (h.feed_not_mem hkind)

/-- A line feed at the end of a text stands behind the lexeme that leads it, or it belongs to blanks
that are all of the text. -/
theorem Leads.cases_feed (h : Leads l w (w ++ ds)) (htext : cs ++ ['\n'] = w ++ ds) :
    (∃ rest, ds = rest ++ ['\n'] ∧ cs = w ++ rest ∧ Leads l w (w ++ rest)) ∨
      (l = .blank ∧ ds = [] ∧ ∀ c ∈ cs, Text.isBlank c = true) := by
  rcases List.eq_nil_or_concat ds with rfl | ⟨rest, d, rfl⟩
  · rw [List.append_nil] at htext
    obtain rfl := (htext ▸ h.isLexeme).eq_blank
    refine .inr ⟨rfl, rfl, fun c hc => h.isLexeme.isBlank c ?_⟩
    rw [← htext]
    exact List.mem_append_left _ hc
  · rw [List.concat_eq_append, ← List.append_assoc] at htext
    rw [List.concat_eq_append] at h ⊢
    obtain ⟨rfl, rfl⟩ := List.append_singleton_inj.mp htext
    exact .inl ⟨rest, rfl, rfl, h.of_front (List.prefix_append rest _)⟩

/-- A line feed at the end of a text can be dropped without a change of its tokens. -/
theorem Scans.of_append_feed (h : Scans (cs ++ ['\n']) ss) : Scans cs ss := by
  generalize htext : cs ++ ['\n'] = text at h
  -- At each lexeme the line feed is behind it, or it is the end of the last one, which is blank.
  induction h generalizing cs with
  | nil => simp at htext
  | token h _ ih =>
    obtain ⟨rest, rfl, rfl, h⟩ | ⟨hl, -⟩ := h.cases_feed htext
    · exact .token h (ih rfl)
    · cases hl
  | skip hl h hs ih =>
    obtain ⟨rest, rfl, rfl, h⟩ | ⟨-, rfl, hblank⟩ := h.cases_feed htext
    · exact .skip hl h (ih rfl)
    · have hcs := hs.blanks hblank
      rwa [List.append_nil] at hcs

/-- The line feeds at the end of a text can be dropped: it `Scans` to the same shapes. -/
theorem Scans.dropFinalFeeds (h : Scans cs ss) : Scans (Text.dropFinalFeeds cs) ss := by
  induction cs using List.reverseRecOn with
  | nil => exact h
  | append_singleton cs c ih =>
    rw [Text.dropFinalFeeds, List.reverse_append, List.reverse_singleton, List.singleton_append]
    by_cases hc : c = '\n'
    · subst hc
      rw [List.dropWhile_cons_of_pos rfl]
      exact ih h.of_append_feed
    · rw [List.dropWhile_cons_of_neg (by simpa using hc), List.reverse_cons, List.reverse_reverse]
      exact h

/-- A text that is placed at a level and taken as an expression has the tokens that it had, in kinds
and texts, if no string among them stands on several lines. -/
theorem tokens_expression_line (level : ℤ) (hunit : ∀ c ∈ unit, Text.isBlank c = true)
    (h : tokens text = .ok ts) (hstring : ∀ t ∈ ts, t.kind = .string → '\n' ∉ t.text.toList) :
    ∃ us, tokens (({ level := level, unit := unit } : Fragment).line text).expression = .ok us ∧
      us.map Token.shape = ts.map Token.shape := by
  have hscans := scans_iff.mpr ⟨ts, h, rfl⟩
  have hshapes : ∀ s ∈ ts.map Token.shape, s.1 = .string → '\n' ∉ s.2.toList :=
    List.forall_mem_map.mpr hstring
  exact scans_iff.mp (hscans.placed hunit hshapes level).dropFinalFeeds

/-- A text with comments, empty lines, line feeds at its end and an escaped quote. -/
def commentedText : List Char :=
  "/* The\n\n first */ [1, // and\n\n  'the\\'s'\n] \n\n".toList

/-- The tokens of `commentedText`, each at its position. -/
def commentedTokens : List Token :=
  [⟨.punctuation, "[", 18⟩, ⟨.number, "1", 19⟩, ⟨.punctuation, ",", 20⟩, ⟨.string, "'the\\'s'", 32⟩,
    ⟨.punctuation, "]", 41⟩]

/-- The tokens stay when the text is placed at the second level, behind tabs. -/
theorem tokens_expression_line_commentedText :
    (∀ c ∈ ['\t'], Text.isBlank c = true) ∧ tokens commentedText = .ok commentedTokens ∧
      (∀ t ∈ commentedTokens, t.kind = .string → '\n' ∉ t.text.toList) ∧
      ∃ us, tokens (({ level := 2, unit := ['\t'] } : Fragment).line commentedText).expression
          = .ok us ∧ us.map Token.shape = commentedTokens.map Token.shape := by
  have hunit : ∀ c ∈ ['\t'], Text.isBlank c = true := List.forall_mem_singleton.mpr (by decide)
  have hscan : (scan commentedText).stuck = none ∧
      (scan commentedText).tokens = commentedTokens := by
    decide +kernel
  have htokens : tokens commentedText = .ok commentedTokens := by
    simp only [tokens, hscan]
  have hstring : ∀ t ∈ commentedTokens, t.kind = .string → '\n' ∉ t.text.toList := by decide
  exact ⟨hunit, htokens, hstring, tokens_expression_line 2 hunit htokens hstring⟩

end SchemaForge.Source
