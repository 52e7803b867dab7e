import Mathlib.Data.List.Basic
import SchemaForge.Source.Fragment
import SchemaForge.Source.Loading

/-!
# Texts and the tokens that they spell

`Spells cs ss` says of a text that it consists of blanks and of tokens of the shapes `ss`, and that
no token runs on into what follows it. Such texts can be put together, side by side
(`Spells.append`) or as lines at some margin (`Spells.withMargins`): neither makes or breaks a
token, since no token reaches over a line feed. Scanning a text gives the tokens that it spells
(`scanFrom_of_spells`).
-/

namespace SchemaForge

/-- A token without its place: its kind and its text, which is all that the parser looks at. -/
abbrev Shape := TokenKind × String

/-- What a token is apart from its position: its kind and its text. -/
def Token.shape (t : Token) : Shape := (t.kind, t.text)

namespace Source

/-- A character that may belong to the same name or number as the one before it, so that the two
have to be kept apart. -/
def runsOn (c : Char) : Bool := isNamePart c || Text.isDigit c || c == '.'

/-- A text that does not begin with any of the characters `stop`. -/
def Avoids (stop : Char → Bool) (rest : List Char) : Prop := ∀ c ∈ rest.head?, stop c = false

/-- A character that may stand between tokens: a space or a line feed. -/
def IsGap (c : Char) : Prop := c = ' ' ∨ c = '\n'

/-- One token `c :: tail` of a kind, which the scanner ends where no character of `stop` follows. -/
structure IsToken (stop : Char → Bool) (kind : TokenKind) (c : Char) (tail : List Char) : Prop where
  /-- It is read as a token, whatever follows. -/
  lexeme : ∀ rest : List Char, Avoids stop rest →
    lexeme? c (tail ++ rest) = some (.token kind, tail.length)
  /-- Only what runs on can prolong it. -/
  runsOn_of_stop : ∀ d, stop d = true → runsOn d = true
  /-- It stands on one line. -/
  no_feed : '\n' ∉ c :: tail

/-- The text consists of gaps and of tokens of these shapes, none of which runs on into what
follows. -/
inductive Spells : List Char → List Shape → Prop
  /-- Nothing. -/
  | nil : Spells [] []
  /-- A gap in front. -/
  | gap {c : Char} {cs : List Char} {ss : List Shape} (h : IsGap c) (hs : Spells cs ss) :
      Spells (c :: cs) ss
  /-- A token in front. -/
  | token {stop : Char → Bool} {kind : TokenKind} {c : Char} {tail cs : List Char}
      {ss : List Shape} (h : IsToken stop kind c tail) (hstop : Avoids stop cs)
      (hs : Spells cs ss) :
      Spells (c :: (tail ++ cs)) ((kind, String.ofList (c :: tail)) :: ss)

variable {stop : Char → Bool} {kind : TokenKind} {c : Char} {tail cs ds : List Char}
  {ss ts : List Shape}

/-! ## Putting texts together -/

/-- The empty text begins with no character at all. -/
theorem avoids_nil (stop : Char → Bool) : Avoids stop [] := by
  intro c hc
  cases hc

/-- A text avoids a test that its first character does not satisfy. -/
theorem avoids_cons (h : stop c = false) : Avoids stop (c :: cs) := by
  intro d hd
  cases hd
  exact h

/-- A text that does not run on avoids all that could prolong a token. -/
theorem IsToken.avoids (h : IsToken stop kind c tail) (hb : Avoids runsOn cs) : Avoids stop cs := by
  intro d hd
  by_contra hs
  rw [Bool.not_eq_false] at hs
  have := hb d hd
  rw [h.runsOn_of_stop d hs] at this
  cases this

/-- A text that is one token spells this token. -/
theorem IsToken.spells (h : IsToken stop kind c tail) :
    Spells (c :: tail) [(kind, String.ofList (c :: tail))] := by
  have hs := Spells.token h (avoids_nil stop) .nil
  rwa [List.append_nil] at hs

/-- Gaps in front of a text spell nothing. -/
theorem Spells.gaps (h : ∀ c ∈ ds, IsGap c) (hs : Spells cs ss) : Spells (ds ++ cs) ss := by
  induction ds with
  | nil => exact hs
  | cons d ds ih =>
    exact .gap (h d List.mem_cons_self) (ih fun c hc => h c (List.mem_cons_of_mem d hc))

/-- A gap does not run on from a word or a number in front of it. -/
theorem IsGap.runsOn (h : IsGap c) : runsOn c = false := by
  rcases h with rfl | rfl <;> decide

/-- A text may be followed by another one that does not run on, and the two spell their tokens one
after the other. -/
theorem Spells.append (hs : Spells cs ss) (hb : Avoids runsOn ds) (ht : Spells ds ts) :
    Spells (cs ++ ds) (ss ++ ts) := by
  induction hs with
  | nil => exact ht
  | gap h _ ih => exact .gap h ih
  | @token stop kind c tail cs ss h hstop _ ih =>
    rw [List.cons_append, List.append_assoc]
    refine .token h ?_ ih
    cases cs with
    | nil => exact h.avoids hb
    | cons d cs => exact avoids_cons (hstop d rfl)

/-! ## Texts at a margin -/

/-- The lines of a text, each with a line feed, and each but the first one behind a margin. -/
def hanging (margin : List Char) : List (List Char) → List Char
  | [] => []
  | line :: more =>
    line ++ '\n' :: (more.map (Fragment.withMargin margin)).flatMap (· ++ ['\n'])

/-- Every text has a first line. -/
theorem exists_lines_eq_cons : ∀ cs : List Char, ∃ line more, Text.lines cs = line :: more
  | [] => ⟨[], [], rfl⟩
  | c :: cs => by
    obtain ⟨line, more, h⟩ := exists_lines_eq_cons cs
    rw [Text.lines, h]
    split_ifs
    · exact ⟨[], line :: more, rfl⟩
    · exact ⟨c :: line, more, rfl⟩

/-- Every text has a line, and be it empty. -/
theorem lines_ne_nil (cs : List Char) : Text.lines cs ≠ [] := by
  obtain ⟨line, more, h⟩ := exists_lines_eq_cons cs
  rw [h]
  exact List.cons_ne_nil line more

/-- The margin of a fragment consists of characters of its unit. -/
theorem mem_unit_of_mem_margin {f : Fragment} (h : c ∈ f.margin) : c ∈ f.unit := by
  obtain ⟨_, hrep, hmem⟩ := List.mem_flatten.mp h
  rwa [List.eq_of_mem_replicate hrep] at hmem

/-- What stands before the first line feed belongs to the first line, which has no margin. -/
theorem hanging_append (margin : List Char) (h : '\n' ∉ ds) :
    hanging margin (Text.lines (ds ++ cs)) = ds ++ hanging margin (Text.lines cs) := by
  induction ds with
  | nil => rfl
  | cons d ds ih =>
    rw [List.mem_cons, not_or] at h
    rw [List.cons_append, List.cons_append, ← ih h.2, Text.lines, if_neg fun hd => h.1 hd.symm]
    obtain ⟨line, more, heq⟩ := exists_lines_eq_cons (ds ++ cs)
    rw [heq]
    rfl

/-- A text that is `hanging` at a margin begins as the text does, or with a line feed. -/
theorem avoids_hanging (margin : List Char) (h : Avoids stop cs) (hfeed : stop '\n' = false) :
    Avoids stop (hanging margin (Text.lines cs)) := by
  cases cs with
  | nil => exact avoids_cons hfeed
  | cons c cs =>
    rw [Text.lines]
    split_ifs with hc
    · exact avoids_cons hfeed
    · obtain ⟨line, more, heq⟩ := exists_lines_eq_cons cs
      rw [heq]
      exact avoids_cons (h c rfl)

/-- Lines behind a margin are the hanging lines, behind the margin or not. -/
theorem exists_hanging (margin : List Char) {lines : List (List Char)} (hne : lines ≠ []) :
    ∃ start, (start = [] ∨ start = margin) ∧
      (lines.map (Fragment.withMargin margin)).flatMap (· ++ ['\n'])
        = start ++ hanging margin lines := by
  obtain ⟨line, more, rfl⟩ := List.exists_cons_of_ne_nil hne
  rw [hanging, List.map_cons, List.flatMap_cons, Fragment.withMargin]
  split_ifs with hl
  · rw [List.isEmpty_iff.mp hl]
    exact ⟨[], .inl rfl, rfl⟩
  · exact ⟨margin, .inr rfl, by simp⟩

/-- Lines behind a margin spell what the hanging lines spell, since a margin is a gap. -/
theorem spells_withMargins_of_hanging {margin : List Char} {lines : List (List Char)}
    (hm : ∀ c ∈ margin, IsGap c) (h : Spells (hanging margin lines) ss) (hne : lines ≠ []) :
    Spells ((lines.map (Fragment.withMargin margin)).flatMap (· ++ ['\n'])) ss := by
  obtain ⟨start, hstart, heq⟩ := exists_hanging margin hne
  rw [heq]
  rcases hstart with rfl | rfl
  · exact h
  · exact h.gaps hm

/-- A text with a margin before each of its lines but the first spells the same tokens. No token
reaches over a line feed, so each stays whole. -/
theorem Spells.hang {margin : List Char} (hm : ∀ c ∈ margin, IsGap c) (h : Spells cs ss) :
    Spells (hanging margin (Text.lines cs)) ss := by
  induction h with
  | nil => exact .gap (.inr rfl) .nil
  | @gap c cs ss h _ ih =>
    rcases h with rfl | rfl
    · have hspace : hanging margin (Text.lines ([' '] ++ cs))
          = [' '] ++ hanging margin (Text.lines cs) := hanging_append margin (by decide)
      rw [List.singleton_append, List.singleton_append] at hspace
      rw [hspace]
      exact .gap (.inl rfl) ih
    · rw [Text.lines, if_pos rfl]
      exact .gap (.inr rfl) (spells_withMargins_of_hanging hm ih (lines_ne_nil cs))
  | @token stop kind c tail cs ss h hstop _ ih =>
    -- A token runs on over no line break, so the margins fall into gaps.
    have hbreak : Avoids runsOn ['\n'] := avoids_cons (by decide)
    have hfeed : stop '\n' = false := h.avoids hbreak '\n' rfl
    have htail : hanging margin (Text.lines (c :: tail ++ cs))
        = c :: tail ++ hanging margin (Text.lines cs) := hanging_append margin h.no_feed
    rw [List.cons_append, List.cons_append] at htail
    rw [htail]
    exact .token h (avoids_hanging margin hstop hfeed) ih

/-- A text with a margin before each of its lines spells the same tokens. -/
theorem Spells.withMargins {margin : List Char} (hm : ∀ c ∈ margin, IsGap c) (h : Spells cs ss) :
    Spells (((Text.lines cs).map (Fragment.withMargin margin)).flatMap (· ++ ['\n'])) ss :=
  spells_withMargins_of_hanging hm (h.hang hm) (lines_ne_nil cs)

/-! ## Scanning -/

/-- A blank begins a run of blanks, which `lexeme?` takes as long as there are any. -/
theorem lexeme?_of_isBlank (h : Text.isBlank c = true) (rest : List Char) :
    lexeme? c rest = some (.blank, countWhile Text.isBlank rest) := by
  unfold lexeme?
  rw [if_pos h]

/-- A gap is a blank for the tokenizer. -/
theorem IsGap.isBlank (h : IsGap c) : Text.isBlank c = true := by
  rcases h with rfl | rfl <;> decide

/-- A token does not begin with a blank, so that blanks are never part of it. -/
theorem IsToken.not_isBlank (h : IsToken stop kind c tail) : Text.isBlank c = false := by
  rw [Bool.eq_false_iff]
  intro hb
  have hl := h.lexeme [] (avoids_nil stop)
  rw [lexeme?_of_isBlank hb] at hl
  cases hl

/-- A text without the blanks in front of it `Spells` the same tokens. -/
theorem Spells.drop_blanks (h : Spells cs ss) :
    Spells (cs.drop (countWhile Text.isBlank cs)) ss := by
  induction h with
  | nil => exact .nil
  | @gap c cs ss h _ ih =>
    rwa [countWhile, List.takeWhile_cons_of_pos h.isBlank, List.length_cons, List.drop_succ_cons]
  | @token stop kind c tail cs ss h hstop hs _ =>
    rw [countWhile, List.takeWhile_cons_of_neg (by simp [h.not_isBlank]), List.length_nil,
      List.drop_zero]
    exact .token h hstop hs

/-- A scan gives the tokens that the text spells, and gets to its end. The induction is on
`Spells`. -/
theorem scanFrom_of_spells (position : ℕ) (done : List Token) (h : Spells cs ss) :
    ∃ ts : List Token, ts.map Token.shape = ss ∧
      scanFrom position done cs = ⟨done.reverse ++ ts, none⟩ := by
  -- The scanner takes all blanks at once, so the induction is on the length of the text.
  induction hn : cs.length using Nat.strongRecOn generalizing position done cs ss with
  | ind n ih =>
    cases h with
    | nil =>
      unfold scanFrom
      exact ⟨[], rfl, by rw [List.append_nil]⟩
    | @gap c cs ss h hs =>
      unfold scanFrom
      rw [lexeme?_of_isBlank h.isBlank]
      refine ih _ ?_ _ _ hs.drop_blanks rfl
      rw [List.length_cons] at hn
      rw [List.length_drop]
      omega
    | @token stop kind c tail cs ss h hstop hs =>
      unfold scanFrom
      rw [h.lexeme cs hstop]
      dsimp only
      rw [List.drop_left, List.take_left]
      have hlt : cs.length < n := by
        rw [List.length_cons, List.length_append] at hn
        omega
      obtain ⟨ts, hts, hscan⟩ := ih _ hlt (position + 1 + tail.length)
        (⟨kind, String.ofList (c :: tail), position⟩ :: done) hs rfl
      refine ⟨⟨kind, String.ofList (c :: tail), position⟩ :: ts, ?_, ?_⟩
      · rw [List.map_cons, hts]
        rfl
      · rw [hscan, List.reverse_cons, List.append_assoc, List.singleton_append]

end Source

end SchemaForge
