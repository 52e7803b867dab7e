import Mathlib.Data.List.Forall2
import SchemaForge.Proofs.Source.Decoding
import SchemaForge.Proofs.Source.Grammar
import SchemaForge.Source.Module

/-!
# Texts of phrases

`Reads cs p` says that a text spells a phrase, and `Denotes s v` that it spells a value. The texts
of names, marks, quoted texts and numbers are put together here as the writer does it: dotted calls,
objects and arrays with their parts in a row or one to a line, and whole texts as lines at a margin.
-/

namespace SchemaForge.Source

/-- A text spells tokens that are a phrase of the grammar (`Spells`, `Derives`). -/
def Reads (cs : List Char) (p : Phrase) : Prop := ∃ ss, Spells cs ss ∧ Derives ss p

/-- A text spells a value: the tokens of the text derive it, as `Reads` says. -/
def Denotes (text : String) (v : Value) : Prop := Reads text.toList (.value v)

/-- A text that may stand as a name, which is so of all constructors and of some keys. -/
def isName (s : String) : Bool :=
  match s.toList with
  | [] => false
  | c :: tail => isNameStart c && tail.all isNamePart

variable {c : Char} {cs ds gaps margin : List Char} {s text : String} {v : Value} {vs : List Value}
  {ss ts : List Shape} {fields : List (String × Value)} {p : Phrase}

/-! ## Tokens in front -/

/-- The marks of punctuation but the point, which may be part of a number. -/
def plainMarks : List Char := ['\x7b', '\x7d', '(', ')', '[', ']', ',', ':', ';', '=']

/-- One of the `plainMarks` in front of a text is a token of its own. -/
theorem Spells.mark (h : c ∈ plainMarks) (hs : Spells cs ss) :
    Spells (c :: cs) ((.punctuation, String.ofList [c]) :: ss) :=
  .token (isToken_mark h) (fun _ _ => rfl) hs

/-- A plain mark does not run on, so that every token may stand in front of it. -/
theorem avoids_mark (h : c ∈ plainMarks) : Avoids runsOn (c :: cs) := by
  refine avoids_cons ?_
  simp only [plainMarks, List.mem_cons, List.not_mem_nil, or_false] at h
  rcases h with rfl | rfl | rfl | rfl | rfl | rfl | rfl | rfl | rfl | rfl <;> decide

/-- Gaps before what does not run on do not run on either, for no gap is a part of a word. -/
theorem avoids_gaps (h : ∀ c ∈ gaps, IsGap c) (hcs : Avoids runsOn cs) :
    Avoids runsOn (gaps ++ cs) := by
  cases gaps with
  | nil => exact hcs
  | cons g gaps => exact avoids_cons (h g List.mem_cons_self).runsOn

/-- A name in front of a text that does not go on with one is a token of its own. -/
theorem Spells.name (h : isName s = true) (hcs : Avoids isNamePart cs) (hs : Spells cs ss) :
    Spells (s.toList ++ cs) ((.name, s) :: ss) := by
  unfold isName at h
  rcases hl : s.toList with _ | ⟨c, tail⟩
  · rw [hl] at h
    cases h
  · rw [hl] at h
    obtain ⟨hc, ht⟩ := Bool.and_eq_true_iff.mp h
    have hs := Spells.token (isToken_name hc (List.all_eq_true.mp ht)) hcs hs
    rwa [← hl, String.ofList_toList] at hs

/-- A quoted text in front of a text is a token of its own, whatever is in it. -/
theorem Spells.quote (s : String) (hs : Spells cs ss) :
    Spells ((Json.quote s).toList ++ cs) ((.string, Json.quote s) :: ss) := by
  have htoken := Spells.token (isToken_quote s) (fun _ _ => rfl) hs
  have hlist : '"' :: (s.toList.flatMap Json.escapedChar ++ ['"']) = (Json.quote s).toList := by
    rw [Json.quote, String.toList_ofList]
  rwa [← List.cons_append, hlist, String.ofList_toList] at htoken

/-- A name does not begin with a digit. -/
theorem avoids_isDigit_name (h : isName s = true) : Avoids Text.isDigit (s.toList ++ cs) := by
  unfold isName at h
  rcases hl : s.toList with _ | ⟨c, tail⟩
  · rw [hl] at h
    cases h
  · rw [hl] at h
    exact avoids_cons (isNameStart_spec (Bool.and_eq_true_iff.mp h).1).2.1

/-- The parts of a dotted name in front of a text spell a point and a name for each. -/
theorem Spells.dotted {path : List String} (h : ∀ part ∈ path, isName part = true)
    (hcs : Avoids isNamePart cs) (hs : Spells cs ss) :
    Spells (path.flatMap (fun part => '.' :: part.toList) ++ cs) (dottedShapes path ++ ss) := by
  have hpoint : ∀ rest : List Char, Avoids isNamePart ('.' :: rest) :=
    fun rest => avoids_cons (by decide)
  induction path with
  | nil => exact hs
  | cons part path ih =>
    have hpart := h part List.mem_cons_self
    have hrest := ih fun part' h' => h part' (List.mem_cons_of_mem part h')
    -- Behind a part stands a point, or what follows the name: neither goes on with it.
    have hnext : Avoids isNamePart (path.flatMap (fun part => '.' :: part.toList) ++ cs) := by
      cases path with
      | nil => exact hcs
      | cons part' path => exact hpoint _
    have hname := Spells.name hpart hnext hrest
    have htoken := Spells.token isToken_point (avoids_isDigit_name hpart) hname
    rw [List.flatMap_cons, List.append_assoc]
    exact htoken

/-! ## Values of one token -/

/-- What `Json.quote` writes for a text denotes the text. -/
theorem denotes_quote (s : String) : Denotes (Json.quote s) (.str s) := by
  have hs := Spells.quote s .nil
  rw [List.append_nil] at hs
  exact ⟨_, hs, .string (decodeString_quote s)⟩

/-- A token that begins with one of the `plainMarks` is punctuation. -/
theorem kind_of_isToken {stop : Char → Bool} {kind : TokenKind} {tail : List Char}
    (h : IsToken stop kind c tail) (hc : c ∈ plainMarks) : kind = .punctuation := by
  have hmark := (isToken_mark hc).lexeme (tail ++ []) fun _ _ => rfl
  rw [List.nil_append, h.lexeme [] (avoids_nil stop), Option.some.injEq, Prod.mk.injEq,
    Lexeme.token.injEq] at hmark
  exact hmark.1

/-- A token of another kind than the marks is no closing mark, so that it does not end items or
members. -/
theorem not_mem_closers {stop : Char → Bool} {kind : TokenKind} {tail : List Char}
    (h : IsToken stop kind c tail) (hkind : kind ≠ .punctuation) :
    String.ofList (c :: tail) ∉ closers := by
  intro hmem
  refine hkind (kind_of_isToken h ?_)
  simp only [closers, List.mem_cons, List.not_mem_nil, or_false] at hmem
  rcases hmem with heq | heq | heq
  all_goals
    have hlist := congrArg String.toList heq
    rw [String.toList_ofList] at hlist
    cases hlist
    decide

/-- A numeral with a sign `Denotes` the number that `decodeNumber` makes of it. -/
theorem denotes_numeral (negative : Bool) {n : Number.Numeral} (h : n.WellFormed)
    (htext : text.toList = Number.signChars negative ++ n.chars) :
    Denotes text (decodeNumber text) := by
  obtain ⟨c, tail, heq, htoken⟩ := isToken_numeral negative h
  have hs := htoken.spells
  have hclose := not_mem_closers htoken (by decide)
  rw [← heq, ← htext, String.ofList_toList] at hs hclose
  exact ⟨_, hs, .number hclose⟩

/-- What `Number.intText` writes of an integer `Denotes` the integer. -/
theorem denotes_intText (n : ℤ) : Denotes (Number.intText n) (.int n) := by
  have h := denotes_numeral _ (Number.wellFormed_digits n.natAbs) (Number.intText_toList n)
  rwa [decodeNumber_intText] at h

/-- The text of a finite binary64 number denotes the number, in either layout. -/
theorem denotes_text (l : Number.Layout) {x : Double} (h : x.isFinite = true) :
    Denotes (x.text l) (.float x) := by
  cases x with
  | finite negative b f =>
    obtain ⟨n, hn, -, htext, -⟩ := Number.exists_numeral_text l negative b f
    have hd := denotes_numeral negative hn htext
    rwa [decodeNumber_text l h] at hd
  | infinite negative => cases h
  | nan n => cases h

/-- The text of a constant denotes its value. -/
theorem denotes_constant (h : (text, v) ∈ constants) : Denotes text v := by
  have hname : isName text = true := by
    simp only [constants, List.mem_cons, Prod.mk.injEq, List.not_mem_nil, or_false] at h
    rcases h with ⟨rfl, -⟩ | ⟨rfl, -⟩ | ⟨rfl, -⟩ <;> decide
  have hs := Spells.name hname (avoids_nil _) .nil
  rw [List.append_nil] at hs
  exact ⟨_, hs, .constant h⟩

/-! ## Brackets -/

/-- Members up to the closing brace are an object behind an opening one. -/
theorem Reads.object (h : Reads cs (.members fields)) :
    Reads ('\x7b' :: cs) (.value (.mapping (Entries.ofPairs (textEntries fields)))) := by
  obtain ⟨ss, hs, hd⟩ := h
  exact ⟨_, hs.mark (by decide), .object hd⟩

/-- Items up to the closing bracket are read as a list behind an opening one. -/
theorem Reads.array (h : Reads cs (.items "]" vs)) : Reads ('[' :: cs) (.value (.list vs)) := by
  obtain ⟨ss, hs, hd⟩ := h
  exact ⟨_, hs.mark (by decide), .array hd⟩

/-- Arguments up to the closing bracket are a call behind a dotted name, if this is no constant. -/
theorem Reads.call {name : String} {path : List String} (hname : isName name = true)
    (hconst : name ∉ Entries.keys constants) (hclose : name ∉ closers)
    (hpath : ∀ part ∈ path, isName part = true) (h : Reads cs (.items ")" vs)) :
    Reads (name.toList ++ (path.flatMap (fun part => '.' :: part.toList) ++ '(' :: cs))
      (.value (.call (name :: path) vs)) := by
  obtain ⟨ss, hs, hd⟩ := h
  have hopen : Avoids isNamePart ('(' :: cs) := avoids_cons (by decide)
  have hdotted := Spells.dotted hpath hopen (hs.mark (by decide))
  refine ⟨_, Spells.name hname ?_ hdotted, .call hconst hclose hd⟩
  cases path with
  | nil => exact hopen
  | cons part path => exact avoids_cons (by decide)

/-- Gaps in front of a text do not change what it is read as. -/
theorem Reads.skip (hg : ∀ c ∈ gaps, IsGap c) (h : Reads cs p) : Reads (gaps ++ cs) p := by
  obtain ⟨ss, hs, hd⟩ := h
  exact ⟨ss, hs.gaps hg, hd⟩

/-! ## Parts in a row and in lines -/

/-- How parts make a phrase up to a closing mark: `one` says what a part is, and `all` what the
phrase of several is. Arrays, arguments and objects are all of this form. -/
structure Listing (closing : Char) (one : List Shape → α → Prop)
    (all : List Shape → List α → Prop) : Prop where
  /-- The closing mark is a mark. -/
  mark : closing ∈ plainMarks
  /-- There may be no part. -/
  nil : all [(.punctuation, String.ofList [closing])] []
  /-- The last part may stand before the closing mark. -/
  last : ∀ {ss a}, one ss a → all (ss ++ [(.punctuation, String.ofList [closing])]) [a]
  /-- A part may stand before a comma. -/
  cons : ∀ {ss ts a as}, one ss a → all ts as → all (ss ++ (.punctuation, ",") :: ts) (a :: as)

/-- The items of an array or of a call are listed, up to their closing mark. -/
theorem itemsListing {closing : Char} (h : closing ∈ plainMarks)
    (hc : String.ofList [closing] ∈ closers) :
    Listing closing (fun ss v => Derives ss (.value v))
      (fun ss vs => Derives ss (.items (String.ofList [closing]) vs)) where
  mark := h
  nil := .noItem
  last := fun hd => .lastItem hc hd
  cons := fun hd hs => .item hc hd hs

/-- The shapes of a member of an object: those of a key, a colon and those of a value. -/
def IsMember (ss : List Shape) (field : String × Value) : Prop :=
  ∃ k ts, ss = k :: (.punctuation, ":") :: ts ∧ IsKey k field.1 ∧ Derives ts (.value field.2)

/-- The members of an object are a `Listing`, up to the closing brace. -/
theorem membersListing :
    Listing '\x7d' IsMember (fun ss fields => Derives ss (.members fields)) where
  mark := by decide
  nil := .noMember
  last := by
    rintro _ ⟨key, v⟩ ⟨k, ts, rfl, hk, hd⟩
    exact .lastMember hk hd
  cons := by
    rintro _ us ⟨key, v⟩ fields ⟨k, ts, rfl, hk, hd⟩ hs
    exact .member hk hd hs

section Listing

variable {closing : Char} {one : List Shape → α → Prop} {all : List Shape → List α → Prop}
  {texts : List String} {as : List α} {a : α}

/-- A text spells a part if its tokens are shapes of the part, whatever follows. -/
def SpellsOne (one : List Shape → α → Prop) (text : String) (a : α) : Prop :=
  ∃ ss, Spells text.toList ss ∧ one ss a

/-- Parts in a row, with a comma and gaps between them and the closing mark behind gaps, spell the
phrase of all of them. -/
theorem Listing.spells_join (l : Listing closing one all) {separator : String}
    (hsep : separator.toList = ',' :: ds) (hds : ∀ c ∈ ds, IsGap c) (hg : ∀ c ∈ gaps, IsGap c)
    (h : List.Forall₂ (SpellsOne one) texts as) :
    ∃ ss, Spells ((Text.join separator texts).toList ++ (gaps ++ [closing])) ss ∧ all ss as := by
  have hclose : Spells (gaps ++ [closing]) [(.punctuation, String.ofList [closing])] :=
    Spells.gaps hg (Spells.mark l.mark .nil)
  -- A part is followed by a comma if there is another one, and else by the closing mark, so the
  -- last part is a case of its own.
  induction h with
  | nil => exact ⟨_, hclose, l.nil⟩
  | @cons text a texts as h hs ih =>
    obtain ⟨ss, hss, hone⟩ := h
    cases hs with
    | nil => exact ⟨_, hss.append (avoids_gaps hg (avoids_mark l.mark)) hclose, l.last hone⟩
    | @cons text' a' texts as h' hs =>
      obtain ⟨ts, hts, hall⟩ := ih
      have hmark := Spells.mark (by decide : ',' ∈ plainMarks) (hts.gaps hds)
      refine ⟨_, ?_, l.cons hone hall⟩
      have happend := hss.append (avoids_mark (by decide)) hmark
      have hjoin : Text.join separator (text :: text' :: texts)
          = text ++ separator ++ Text.join separator (text' :: texts) := rfl
      rw [hjoin, String.toList_append, String.toList_append, hsep, List.append_assoc,
        List.append_assoc, List.cons_append]
      exact happend

/-- The lines of a text behind a margin, each with its line feed, as a `Fragment` puts them. -/
def marginLines (margin : List Char) (text : String) : List Char :=
  ((Text.lines text.toList).map (Fragment.withMargin margin)).flatMap (· ++ ['\n'])

/-- Lines behind a margin do not run on, since a margin that is not empty begins with a gap. -/
theorem avoids_marginLines {g : Char} (hg : IsGap g) (cs : List Char) :
    Avoids runsOn (marginLines (g :: margin) text ++ cs) := by
  obtain ⟨line, more, heq⟩ := exists_lines_eq_cons text.toList
  rw [marginLines, heq, List.map_cons, List.flatMap_cons, Fragment.withMargin]
  split_ifs
  · exact avoids_cons (by decide)
  · exact avoids_cons hg.runsOn

/-- Parts in lines at a margin, each with a comma, and the closing mark spell the phrase of all of
them. -/
theorem Listing.spells_lines (l : Listing closing one all) {g : Char} (hg : IsGap g)
    (hm : ∀ c ∈ margin, IsGap c) (h : List.Forall₂ (SpellsOne one) texts as) :
    ∃ ss, Spells ((texts.map (· ++ ",")).flatMap (marginLines (g :: margin)) ++ [closing]) ss
      ∧ all ss as := by
  induction h with
  | nil => exact ⟨_, Spells.mark l.mark .nil, l.nil⟩
  | @cons text a texts as h hs ih =>
    obtain ⟨ss, hss, hone⟩ := h
    obtain ⟨ts, hts, hall⟩ := ih
    refine ⟨_, ?_, l.cons hone hall⟩
    have hcomma : Spells (text ++ ",").toList (ss ++ [(.punctuation, ",")]) := by
      rw [String.toList_append]
      exact hss.append (avoids_mark (by decide)) (Spells.mark (by decide) .nil)
    have hlines := hcomma.withMargins fun c (hc : c ∈ g :: margin) => by
      rcases List.mem_cons.mp hc with rfl | hc
      · exact hg
      · exact hm c hc
    -- A part ends with its line, since what follows begins with a gap or is the mark.
    have hnext : Avoids runsOn
        ((texts.map (· ++ ",")).flatMap (marginLines (g :: margin)) ++ [closing]) := by
      cases texts with
      | nil => exact avoids_mark l.mark
      | cons text' texts =>
        rw [List.map_cons, List.flatMap_cons, List.append_assoc]
        exact avoids_marginLines hg _
    have happend := hlines.append hnext hts
    rw [List.append_assoc, List.singleton_append] at happend
    rw [List.map_cons, List.flatMap_cons, List.append_assoc]
    exact happend

end Listing

/-! ## Objects, calls and blocks -/

/-- A quoted key, a colon and a text that denotes a value spell a member of an object. -/
theorem spellsOne_quote (key : String) (h : Denotes text v) :
    SpellsOne IsMember (Json.quote key ++ ": " ++ text) (key, v) := by
  obtain ⟨ss, hs, hd⟩ := h
  refine ⟨_, ?_, _, ss, rfl, .string (decodeString_quote key), hd⟩
  have hkey := Spells.quote key (Spells.mark (by decide : ':' ∈ plainMarks) (.gap (.inl rfl) hs))
  rw [String.toList_append, String.toList_append, List.append_assoc]
  exact hkey

/-- A name as a key, a colon and a text that denotes a value spell a member of an object. -/
theorem spellsOne_name {key : String} (hkey : isName key = true) (hclose : key ∉ closers)
    (h : Denotes text v) : SpellsOne IsMember (key ++ ": " ++ text) (key, v) := by
  obtain ⟨ss, hs, hd⟩ := h
  refine ⟨_, ?_, _, ss, rfl, .name hclose, hd⟩
  have hname := Spells.name hkey (avoids_cons (by decide))
    (Spells.mark (by decide : ':' ∈ plainMarks) (.gap (.inl rfl) hs))
  rw [String.toList_append, String.toList_append, List.append_assoc]
  exact hname

/-- The separator of a row is a comma and a space. -/
theorem toList_comma : ", ".toList = [',', ' '] := rfl

/-- A single space is a gap. -/
theorem isGap_space : ∀ c ∈ [' '], IsGap c := fun _ hc => .inl (List.mem_singleton.mp hc)

/-- There is no gap in the empty text. -/
theorem isGap_nil : ∀ c ∈ ([] : List Char), IsGap c := fun _ hc => absurd hc List.not_mem_nil

/-- Texts in a row that denote values are arguments, up to the bracket behind them. -/
theorem reads_arguments {texts : List String} (h : List.Forall₂ Denotes texts vs) :
    Reads ((Text.join ", " texts).toList ++ [')']) (.items ")" vs) :=
  (itemsListing (by decide : ')' ∈ plainMarks) (by decide)).spells_join toList_comma
    isGap_space isGap_nil h

/-- Arguments behind a dotted name under the alias of the constructors are a call. -/
theorem Reads.builderCall {path : List String} (hpath : ∀ part ∈ path, isName part = true)
    (h : Reads cs (.items ")" vs)) :
    Reads (builderName.toList ++ (path.flatMap (fun part => '.' :: part.toList) ++ '(' :: cs))
      (.value (.call (builderName :: path) vs)) := by
  have hname : isName builderName = true := by decide
  have hconst : builderName ∉ Entries.keys constants := by decide
  have hclose : builderName ∉ closers := by decide
  exact h.call hname hconst hclose hpath

/-- What `construct` writes denotes the call of the constructor with the arguments that are not
empty. -/
theorem denotes_construct {constructor : String} {arguments : List String}
    (hname : isName constructor = true)
    (h : List.Forall₂ Denotes (arguments.filter (!·.isEmpty)) vs) :
    Denotes (construct constructor arguments) (.call [builderName, constructor] vs) := by
  have hpath : ∀ part ∈ [constructor], isName part = true := fun _ hp =>
    (List.mem_singleton.mp hp) ▸ hname
  have hcall := Reads.builderCall hpath (reads_arguments h)
  rw [Denotes, construct]
  simpa [String.toList_append] using hcall

/-- What is written for a function that computes a default denotes the call of it. -/
theorem denotes_defaultCall {name : String} {arguments : List String} (hname : isName name = true)
    (h : List.Forall₂ Denotes arguments vs) :
    Denotes (builderName ++ ".Default." ++ name ++ "(" ++ Text.join ", " arguments ++ ")")
      (.call [builderName, "Default", name] vs) := by
  have hpath : ∀ part ∈ ["Default", name], isName part = true := by
    intro part hp
    rcases List.mem_cons.mp hp with rfl | hp
    · decide
    · exact (List.mem_singleton.mp hp) ▸ hname
  have hcall := Reads.builderCall hpath (reads_arguments h)
  rw [Denotes]
  simpa [String.toList_append] using hcall

/-- Members with distinct keys, up to the brace behind them, are an object with these fields. -/
theorem Reads.record {fields : List (String × Value)} (hn : (Entries.keys fields).Nodup)
    (h : ∃ ss, Spells cs ss ∧ Derives ss (.members fields)) :
    Reads ('\x7b' :: cs) (.value (.record fields)) := by
  have hobject := Reads.object h
  rwa [textEntries.ofPairs hn] at hobject

/-- What `inlineObject` writes denotes the object of its members, if their keys are distinct. -/
theorem denotes_inlineObject {members : List (String × String)} (hn : (Entries.keys fields).Nodup)
    (h : List.Forall₂ (SpellsOne IsMember) (members.map fun m => m.1 ++ ": " ++ m.2) fields) :
    Denotes (inlineObject members) (.record fields) := by
  have hobject := Reads.record hn
    (membersListing.spells_join toList_comma isGap_space isGap_nil h)
  rw [Denotes, inlineObject]
  simpa [String.toList_append] using hobject

/-! ## Blocks -/

/-- A text without line feeds is one line. -/
theorem lines_of_not_mem (h : '\n' ∉ cs) : Text.lines cs = [cs] := by
  induction cs with
  | nil => rfl
  | cons c cs ih =>
    rw [List.mem_cons, not_or] at h
    rw [Text.lines, if_neg fun hc => h.1 hc.symm, ih h.2]

/-- A line behind the empty margin stays as it is. -/
theorem withMargin_nil (cs : List Char) : Fragment.withMargin [] cs = cs := by
  cases cs <;> rfl

/-- The function `linesOf` adds the lines of several texts, each behind the margin. -/
theorem linesOf_written (f : Fragment) (texts : List (List Char)) :
    f.linesOf texts = { f with
      written := f.written ++ texts.flatMap fun text =>
        (Text.lines text).map (Fragment.withMargin f.margin) } := by
  induction texts generalizing f with
  | nil => rw [List.flatMap_nil, List.append_nil]; rfl
  | cons text texts ih =>
    rw [Fragment.linesOf, List.foldl_cons, ← Fragment.linesOf, ih, List.flatMap_cons,
      ← List.append_assoc]
    rfl

/-- The function `Text.dropFinalFeeds` drops line feeds up to a character that is none. -/
theorem dropFinalFeeds_append (h : c ≠ '\n') :
    Text.dropFinalFeeds (cs ++ [c, '\n']) = cs ++ [c] := by
  rw [Text.dropFinalFeeds, List.reverse_append]
  show (List.dropWhile (· == '\n') ('\n' :: c :: cs.reverse)).reverse = _
  rw [List.dropWhile_cons_of_pos (by decide), List.dropWhile_cons_of_neg (by simpa using h),
    List.reverse_cons, List.reverse_reverse]

/-- What `Fragment.block` writes: the opening line, the lines of the parts at a margin of two
spaces, each part with a comma, and the closing line. -/
theorem block_toList {opening closing : String} {items : List String}
    (ho : '\n' ∉ opening.toList) (hc : '\n' ∉ closing.toList) (hne : closing.toList ≠ []) :
    (Fragment.block opening items closing).toList
      = opening.toList ++ '\n' :: (items.flatMap (marginLines [' ', ' ']) ++ closing.toList) := by
  have hopen : ({} : Fragment).line opening.toList = { written := [opening.toList] } := by
    rw [Fragment.line, lines_of_not_mem ho]
    exact congrArg (fun line => ({ written := [line] } : Fragment)) (withMargin_nil _)
  have hclose : ∀ written, ({ written := written } : Fragment).line closing.toList
      = { written := written ++ [closing.toList] } := by
    intro written
    rw [Fragment.line, lines_of_not_mem hc]
    exact congrArg (fun line => ({ written := written ++ [line] } : Fragment)) (withMargin_nil _)
  have hitems : (((({} : Fragment).line opening.toList).indent 1).linesOf
      (items.map String.toList)).indent (-1) =
        { written := [opening.toList] ++ (items.map String.toList).flatMap
            (fun text => (Text.lines text).map (Fragment.withMargin [' ', ' '])) } := by
    rw [hopen, linesOf_written]
    rfl
  have hflat : ∀ texts : List String, (((texts.map String.toList).flatMap fun text =>
      (Text.lines text).map (Fragment.withMargin [' ', ' '])).flatMap (· ++ ['\n']))
        = texts.flatMap (marginLines [' ', ' ']) := by
    intro texts
    rw [List.flatMap_assoc, List.flatMap_map]
    rfl
  -- Of the final line feeds only the one behind the closing line is dropped, as that line is not
  -- empty and ends with no feed of its own.
  obtain ⟨body, last, hlast⟩ : ∃ body last, closing.toList = body ++ [last] :=
    ⟨_, _, (List.dropLast_append_getLast hne).symm⟩
  have hfeed : last ≠ '\n' := by
    rintro rfl
    exact hc (by rw [hlast]; simp)
  rw [Fragment.block, String.toList_ofList, hitems, hclose, Fragment.expression, Fragment.text,
    List.flatMap_append, List.flatMap_append, hflat, List.flatMap_singleton,
    List.flatMap_singleton, hlast]
  have hdrop : Text.dropFinalFeeds (opening.toList ++ ['\n']
      ++ items.flatMap (marginLines [' ', ' ']) ++ body ++ [last, '\n'])
        = opening.toList ++ ['\n'] ++ items.flatMap (marginLines [' ', ' ']) ++ body ++ [last] :=
    dropFinalFeeds_append hfeed
  simpa [List.append_assoc] using hdrop

/-- Members in lines with distinct keys, up to the brace behind them, are an object with these
fields. -/
theorem reads_lines {texts : List String} (hn : (Entries.keys fields).Nodup)
    (h : List.Forall₂ (SpellsOne IsMember) texts fields) :
    Reads ('\x7b' :: '\n' ::
        ((texts.map (· ++ ",")).flatMap (marginLines [' ', ' ']) ++ ['\x7d']))
      (.value (.record fields)) := by
  obtain ⟨ss, hs, hd⟩ := membersListing.spells_lines (.inl rfl : IsGap ' ') isGap_space h
  exact Reads.record hn ⟨ss, .gap (.inr rfl) hs, hd⟩

/-- A block between braces denotes the object of its members, if their keys are distinct. -/
theorem denotes_block {texts : List String} (hn : (Entries.keys fields).Nodup)
    (h : List.Forall₂ (SpellsOne IsMember) texts fields) :
    Denotes (Fragment.block "\x7b" (texts.map (· ++ ",")) "\x7d") (.record fields) := by
  rw [Denotes, block_toList (by decide) (by decide) (by decide)]
  exact reads_lines hn h

/-- A name has no line feed in it. -/
theorem feed_not_mem_of_isName (h : isName s = true) : '\n' ∉ s.toList := by
  unfold isName at h
  rcases hl : s.toList with _ | ⟨c, tail⟩
  · exact List.not_mem_nil
  · rw [hl] at h
    obtain ⟨hc, ht⟩ := Bool.and_eq_true_iff.mp h
    exact (isToken_name hc (List.all_eq_true.mp ht)).no_feed

/-- What is written for a tree denotes the call of its constructor with the object of its
members. -/
theorem denotes_tree {constructor : String} {texts : List String}
    (hname : isName constructor = true) (hn : (Entries.keys fields).Nodup)
    (h : List.Forall₂ (SpellsOne IsMember) texts fields) :
    Denotes (tree constructor (texts.map (· ++ ",")))
      (.call [builderName, constructor] [.record fields]) := by
  -- Without members the braces stand on one line, with members on lines of their own.
  cases h with
  | nil =>
    have hempty : Denotes "\x7b\x7d" (.record []) :=
      Reads.record hn ⟨_, Spells.mark (by decide) .nil, .noMember⟩
    exact denotes_construct hname (.cons hempty .nil)
  | @cons text field texts fields h hs =>
    have hlines := reads_lines hn (.cons h hs)
    have hpath : ∀ part ∈ [constructor], isName part = true := fun _ hp =>
      (List.mem_singleton.mp hp) ▸ hname
    obtain ⟨ss, hss, hd⟩ := hlines
    have harguments : Reads _ (.items ")" [.record (field :: fields)]) :=
      ⟨_, hss.append (avoids_mark (by decide : ')' ∈ plainMarks)) (Spells.mark (by decide) .nil),
        .lastItem (by decide) hd⟩
    have hcall := Reads.builderCall hpath harguments
    have hopen : '\n' ∉ (builderName ++ "." ++ constructor ++ "(\x7b").toList := by
      have := feed_not_mem_of_isName hname
      simp [String.toList_append, builderName, this]
    rw [Denotes, tree, if_neg (by simp), block_toList hopen (by decide) (by decide)]
    simpa [String.toList_append] using hcall

end SchemaForge.Source
