import SchemaForge.Report
import SchemaForge.Text.Blank
import SchemaForge.Text.Digit
import SchemaForge.Text.Quoted

/-!
# Tokens of a module

A module is a sequence of tokens (strings, numbers, names and marks of punctuation) between which
blanks and comments may stand. `lexeme?` says what begins at the front of a text and how long it is;
`scan` takes one lexeme after the other and keeps the tokens among them, each with the number of
characters before it. It stops at the end or at the first place where no lexeme begins.

Blanks and digits are those of Unicode; names are ASCII.
-/

namespace SchemaForge

/-- The kinds of token. -/
inductive TokenKind where
  /-- A text between single or double quotes, as it is written. -/
  | string
  /-- A number. -/
  | number
  /-- A name or a keyword. -/
  | name
  /-- A single mark. -/
  | punctuation
  deriving DecidableEq, Repr

/-- A token, with the characters it consists of; what they stand for is said by `decodeString` and
`decodeNumber`. -/
structure Token where
  /-- Its kind. -/
  kind : TokenKind
  /-- The characters it consists of. -/
  text : String
  /-- The number of characters before it. -/
  position : Nat
  deriving DecidableEq, Repr

namespace Source

/-- The length of a string up to and with its closing quote, seen from behind the opening one. A
backslash takes the next character with it; no other line feed may stand inside. -/
def stringTail? (quote : Char) : List Char → Option Nat
  | [] => none
  | '\\' :: _ :: rest => (stringTail? quote rest).map (· + 2)
  | c :: rest =>
    if c = quote then some 1
    else if c = '\n' ∨ c = '\\' then none
    else (stringTail? quote rest).map (· + 1)

/-- The length of a comment up to and with its end mark, seen from behind the opening one. -/
def commentTail? : List Char → Option Nat
  | [] => none
  | '*' :: '/' :: _ => some 2
  | _ :: rest => (commentTail? rest).map (· + 1)

/-- The number of leading characters that satisfy `p`. -/
def countWhile (p : Char → Bool) (cs : List Char) : Nat := (cs.takeWhile p).length

/-- The length of the exponent at the front of a text, zero if there is none. A mark without digits
behind it is no exponent. -/
def exponentLength : List Char → Nat
  | [] => 0
  | c :: rest =>
    if c = 'e' ∨ c = 'E' then
      let sign := match rest with
        | '+' :: _ => 1
        | '-' :: _ => 1
        | _ => 0
      let n := countWhile Text.isDigit (rest.drop sign)
      if n = 0 then 0 else 1 + sign + n
    else 0

/-- The length of the digits of a number with at most one point among them: digits first, or a
point with a digit behind it. -/
def mantissaLength? (cs : List Char) : Option Nat :=
  let whole := countWhile Text.isDigit cs
  match cs.drop whole with
  | '.' :: rest =>
    let part := countWhile Text.isDigit rest
    if whole = 0 ∧ part = 0 then none else some (whole + 1 + part)
  | _ => if whole = 0 then none else some whole

/-- The length of the number without sign at the front of a text: `mantissaLength?` and then
`exponentLength`. -/
def magnitudeLength? (cs : List Char) : Option Nat :=
  (mantissaLength? cs).map fun n => n + exponentLength (cs.drop n)

/-- A character that may begin a name. -/
def isNameStart (c : Char) : Bool :=
  let n := c.toNat
  (97 ≤ n && n ≤ 122) || (65 ≤ n && n ≤ 90) || c == '_' || c == '$'

/-- A character that may continue a name. -/
def isNamePart (c : Char) : Bool := isNameStart c || (48 ≤ c.toNat && c.toNat ≤ 57)

/-- The marks of punctuation. -/
def marks : List Char := ['\x7b', '\x7d', '(', ')', '[', ']', ',', ':', ';', '.', '=']

/-- What a lexeme is: something between tokens, or a token of a kind. -/
inductive Lexeme where
  /-- Blanks. -/
  | blank
  /-- A comment. -/
  | comment
  /-- A token. -/
  | token (kind : TokenKind)
  deriving DecidableEq, Repr

/-- The lexeme that begins with `c` before `rest`, and how many characters of `rest` belong to it.
What the lexemes are without regard to how they are found is said by `Lexemes`. -/
def lexeme? (c : Char) (rest : List Char) : Option (Lexeme × Nat) :=
  if Text.isBlank c then some (.blank, countWhile Text.isBlank rest)
  else if c = '/' then
    match rest with
    | '/' :: rest => some (.comment, 1 + countWhile (· ≠ '\n') rest)
    | '*' :: rest => (commentTail? rest).map fun n => (.comment, 1 + n)
    | _ => none
  else if c = '"' ∨ c = '\'' then (stringTail? c rest).map fun n => (.token .string, n)
  -- A dash belongs to a number, and alone it begins nothing.
  else if c = '-' then (magnitudeLength? rest).map fun n => (.token .number, n)
  else match magnitudeLength? (c :: rest) with
    | some n => some (.token .number, n - 1)
    | none =>
      -- Digits come first, so that a name never begins with one.
      if isNameStart c then some (.token .name, countWhile isNamePart rest)
      else if marks.contains c then some (.token .punctuation, 0)
      else none

/-- What a scan finds: the tokens, and the place and character at which it got stuck. Its parts are
a partition of the text (`scan_isPartition`). -/
structure Scan where
  /-- The tokens in order. -/
  tokens : List Token
  /-- The character at which no lexeme begins and its place, if there is one. -/
  stuck : Option (Char × Nat)

/-- The tokens of a text that begins at `position`, one `lexeme?` after the other; `done` holds
those before, last one first. -/
def scanFrom (position : Nat) (done : List Token) : List Char → Scan
  | [] => ⟨done.reverse, none⟩
  | c :: rest =>
    match lexeme? c rest with
    | none => ⟨done.reverse, some (c, position)⟩
    | some (.token kind, n) =>
      scanFrom (position + 1 + n) (⟨kind, String.ofList (c :: rest.take n), position⟩ :: done)
        (rest.drop n)
    -- Blanks and comments are passed over, and only move the position.
    | some (_, n) => scanFrom (position + 1 + n) done (rest.drop n)
termination_by cs => cs.length
decreasing_by all_goals simp only [List.length_drop, List.length_cons]; omega

/-- The tokens of a text, and the place where it got stuck if it did. `tokens` makes an error of the
latter. -/
def scan (text : List Char) : Scan := scanFrom 0 [] text

end Source

end SchemaForge
