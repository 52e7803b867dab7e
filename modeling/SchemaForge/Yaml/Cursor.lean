import SchemaForge.Report

/-!
# Places in a YAML text

A `Cursor` is what is left of a text, with the place at which it begins: the number of characters
before it, and the line and the column that they lead to. A byte order mark takes no column.
-/

namespace SchemaForge.Yaml

/-- Why a text is not a YAML document. `Cause.message` words it. -/
inductive Cause where
  /-- The text has a character that no document may hold. -/
  | unprintable
  /-- No token begins with the character at hand. -/
  | noToken
  /-- A key that must have a value has no colon. -/
  | noColon
  /-- An item, a key or a value stands where none may begin. -/
  | misplaced
  /-- A directive is malformed, doubled or for another version. -/
  | badDirective
  /-- The name of an anchor or an alias is malformed. -/
  | badName
  /-- A tag is malformed, or its handle is not declared. -/
  | badTag
  /-- The header of a block scalar is malformed. -/
  | badHeader
  /-- A quoted scalar does not end, or has an unknown escape. -/
  | badQuoted
  /-- The tokens do not make a document. -/
  | badStructure
  /-- An alias names no node before it, or an anchor names a second one. -/
  | badAnchor
  /-- A node has not the form that its tag needs. -/
  | badNode
  /-- A key cannot be looked up. -/
  | badKey
  /-- No value is known for a tag. -/
  | unknownTag
  deriving DecidableEq, Repr

/-- The wording of a cause. -/
def Cause.message : Cause → String
  | .unprintable => "unprintable character"
  | .noToken => "no token begins here"
  | .noColon => "missing ':' after a key"
  | .misplaced => "misplaced item, key or value"
  | .badDirective => "malformed directive"
  | .badName => "malformed anchor or alias"
  | .badTag => "malformed or undeclared tag"
  | .badHeader => "malformed block scalar header"
  | .badQuoted => "malformed quoted scalar"
  | .badStructure => "unexpected token"
  | .badAnchor => "undefined alias or repeated anchor"
  | .badNode => "node does not fit its tag"
  | .badKey => "a collection is no key"
  | .unknownTag => "unknown tag"

/-- The characters that end a line. -/
def isBreak (c : Char) : Bool :=
  c == '\n' || c == '\r' || c == '\x85' || c == '\u2028' || c == '\u2029'

/-- What is left of a text, and where it begins. All readers of YAML text go from one cursor to
another. -/
structure Cursor where
  /-- What is left of the text. -/
  rest : List Char
  /-- The number of characters before it. -/
  index : Nat := 0
  /-- The number of lines before it. -/
  line : Nat := 0
  /-- The number of columns before it on its line. -/
  column : Nat := 0

namespace Cursor

/-- The next character; there is none at the end. -/
def peek (p : Cursor) : Option Char := p.rest.head?

/-- The character after `n` more. -/
def ahead (n : Nat) (p : Cursor) : Option Char := p.rest[n]?

/-- Whether the next character satisfies a condition. -/
def sees (p : Cursor) (condition : Char → Bool) : Bool := p.peek.any condition

/-- The cursor behind the next character. The two characters of one line ending make one line. -/
def next (p : Cursor) : Cursor :=
  match p.rest with
  | [] => p
  | c :: rest =>
    if isBreak c && !(c == '\r' && rest.head? == some '\n') then
      { rest, index := p.index + 1, line := p.line + 1, column := 0 }
    else if c == '\ufeff' then { p with rest, index := p.index + 1 }
    else { p with rest, index := p.index + 1, column := p.column + 1 }

/-- The cursor behind `n` more characters. -/
def skip : Nat → Cursor → Cursor
  | 0, p => p
  | n + 1, p => skip n p.next

/-- The characters that satisfy a condition, and the cursor behind them. -/
def takeWhile (condition : Char → Bool) (p : Cursor) : List Char × Cursor :=
  let taken := p.rest.takeWhile condition
  (taken, p.skip taken.length)

/-- The cursor behind the characters that satisfy a condition. -/
def skipWhile (condition : Char → Bool) (p : Cursor) : Cursor := (p.takeWhile condition).2

/-- The cursor behind the spaces. -/
def skipSpaces (p : Cursor) : Cursor := p.skipWhile (· == ' ')

/-- The cursor at the end of the line. -/
def skipLine (p : Cursor) : Cursor := p.skipWhile fun c => !isBreak c

/-- The text that a line ending stands for, and the cursor behind it; no text where none is. -/
def lineBreak (p : Cursor) : List Char × Cursor :=
  match p.rest with
  | '\r' :: '\n' :: _ => (['\n'], p.skip 2)
  | c :: _ =>
    if c == '\u2028' || c == '\u2029' then ([c], p.next)
    else if isBreak c then (['\n'], p.next)
    else ([], p)
  | [] => ([], p)

end Cursor

/-- The end of the text or of the line. -/
def endsLine (c : Option Char) : Bool := c.all isBreak

/-- The end of the text or of the line, or a space. -/
def endsWord (c : Option Char) : Bool := c.all fun c => isBreak c || c == ' '

/-- The end of the text or of the line, a space or a tab. -/
def endsToken (c : Option Char) : Bool := c.all fun c => isBreak c || c == ' ' || c == '\t'

/-- Whether three dashes or three dots, which part documents, stand at the cursor. -/
def atSeparator (p : Cursor) : Bool :=
  let three := p.rest.take 3
  (three == ['-', '-', '-'] || three == ['.', '.', '.']) && endsToken (p.ahead 3)

/-- The characters of names: ASCII letters and digits, dash and underscore. -/
def isNameChar (c : Char) : Bool := c.isAlphanum || c == '-' || c == '_'

/-- The value of a hexadecimal digit. -/
def hexDigit? (c : Char) : Option Nat :=
  if '0' ≤ c ∧ c ≤ '9' then some (c.toNat - 48)
  else if 'a' ≤ c ∧ c ≤ 'f' then some (c.toNat - 87)
  else if 'A' ≤ c ∧ c ≤ 'F' then some (c.toNat - 55)
  else none

/-- The characters that a document may hold: tab, line endings and whatever is not a control
character. -/
def isAllowed (c : Char) : Bool :=
  let n := c.toNat
  n == 9 || n == 10 || n == 13 || (0x20 ≤ n && n ≤ 0x7e) || n == 0x85
    || (0xa0 ≤ n && n ≤ 0xfffd) || 0x10000 ≤ n

end SchemaForge.Yaml
