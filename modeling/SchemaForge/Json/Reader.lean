import SchemaForge.Number.Reading
import SchemaForge.Text.Encoding
import SchemaForge.Value.Access

/-!
# Reading JSON

The value of a JSON text, or the first place where it goes wrong. Besides strict JSON the names
`NaN`, `Infinity` and `-Infinity` are read as numbers. A key that comes twice keeps its first place
and its last value. A number without fraction and exponent is an integer.

The reader works on what is left of the text; a place is a number of characters from the start,
and each function is told the place at which its text begins.
-/

namespace SchemaForge.Json

/-- What is wrong at a place in a JSON text. `Cause.message` words it. -/
inductive Cause where
  /-- The text begins with a byte order mark. -/
  | byteOrderMark
  /-- No value begins here. -/
  | noValue
  /-- An object needs a key here. -/
  | noKey
  /-- A key needs a colon here. -/
  | noColon
  /-- A comma or the end of the array or object is missing here. -/
  | noComma
  /-- The value has ended and more text follows. -/
  | extraData
  /-- A string begins here and does not end. -/
  | unterminatedString
  /-- A control character stands in a string. -/
  | controlCharacter
  /-- A backslash is followed by a character that makes no escape. -/
  | badEscape
  /-- An escape by number lacks its four digits. -/
  | badUnicodeEscape
  deriving DecidableEq, Repr

/-- The wording of a cause. -/
def Cause.message : Cause → String
  | .byteOrderMark => "Unexpected UTF-8 BOM (decode using utf-8-sig)"
  | .noValue => "Expecting value"
  | .noKey => "Expecting property name enclosed in double quotes"
  | .noColon => "Expecting ':' delimiter"
  | .noComma => "Expecting ',' delimiter"
  | .extraData => "Extra data"
  | .unterminatedString => "Unterminated string starting at"
  | .controlCharacter => "Invalid control character at"
  | .badEscape => "Invalid \\escape"
  | .badUnicodeEscape => "Invalid \\uXXXX escape"

/-- A cause at a place. -/
structure Error where
  /-- What is wrong. -/
  cause : Cause
  /-- The number of characters before the place. -/
  position : Nat
  deriving DecidableEq, Repr

/-- The wording of an error in a text: the cause with the line, the column and the place, of which
the first two count from one. -/
def Error.message (e : Error) (text : List Char) : String :=
  let before := text.take e.position
  let line := before.count '\n' + 1
  let column := (before.reverse.takeWhile (· ≠ '\n')).length + 1
  e.cause.message ++ ": line " ++ Number.intText line ++ " column " ++ Number.intText column
    ++ " (char " ++ Number.intText e.position ++ ")"

/-- What was read, the place behind it and the rest of the text. Every function of the reader gives
one. -/
structure Reading (α : Type) where
  /-- What was read. -/
  value : α
  /-- The place at which the rest begins. -/
  position : Nat
  /-- The rest of the text. -/
  rest : List Char

/-- The characters that may stand between the parts of a JSON text. -/
def isSpace (c : Char) : Bool := c == ' ' || c == '\t' || c == '\n' || c == '\r'

/-- The text behind its leading spaces (`isSpace`), and the place where it begins. -/
def skipSpace (position : Nat) : List Char → Nat × List Char
  | [] => (position, [])
  | c :: rest => if isSpace c then skipSpace (position + 1) rest else (position, c :: rest)

/-- The value of a hexadecimal digit. -/
def hexValue? (c : Char) : Option Nat :=
  let n := c.toNat
  if 48 ≤ n ∧ n ≤ 57 then some (n - 48)
  else if 97 ≤ n ∧ n ≤ 102 then some (n - 87)
  else if 65 ≤ n ∧ n ≤ 70 then some (n - 55)
  else none

/-- The number that four hexadecimal digits stand for. -/
def hex4? (a b c d : Char) : Option Nat := do
  let a ← hexValue? a
  let b ← hexValue? b
  let c ← hexValue? c
  let d ← hexValue? d
  return ((a * 16 + b) * 16 + c) * 16 + d

/-- The character that an escape by a letter stands for. -/
def simpleEscape? : Char → Option Char
  | '"' => some '"'
  | '\\' => some '\\'
  | '/' => some '/'
  | 'b' => some (Char.ofNat 8)
  | 'f' => some (Char.ofNat 12)
  | 'n' => some '\n'
  | 'r' => some '\r'
  | 't' => some '\t'
  | _ => none

/-- The character of a code point; half a pair, which is no character, is replaced. -/
def charOfCode (n : Nat) : Char :=
  if 0xd800 ≤ n ∧ n ≤ 0xdfff then Char.ofNat 0xfffd else Char.ofNat n

/-- The contents of a string behind its opening quotation mark, up to and with the closing one.
`start` is the place of the opening mark, `position` that of the first character, and `done` holds
the characters read, last one first. Two escapes by number that make a surrogate pair are one
character. -/
def readString (start : Nat) (position : Nat) (done : List Char) :
    List Char → Except Error (Reading (List Char))
  | [] => .error ⟨.unterminatedString, start⟩
  | '"' :: rest => .ok ⟨done.reverse, position + 1, rest⟩
  | ['\\'] => .error ⟨.unterminatedString, start⟩
  | '\\' :: 'u' :: a :: b :: c :: d :: next :: rest =>
    match hex4? a b c d with
    | none => .error ⟨.badUnicodeEscape, position + 1⟩
    | some high =>
      match next, rest with
      | '\\', 'u' :: a' :: b' :: c' :: d' :: next' :: rest' =>
        -- Only the first half of a pair looks for a second one.
        if Text.isHighSurrogate high then
          match hex4? a' b' c' d' with
          | none => .error ⟨.badUnicodeEscape, position + 7⟩
          | some low =>
            if Text.isLowSurrogate low then
              readString start (position + 12) (charOfCode (Text.joinSurrogates high low) :: done)
                (next' :: rest')
            else
              readString start (position + 6) (charOfCode high :: done)
                ('\\' :: 'u' :: a' :: b' :: c' :: d' :: next' :: rest')
        else
          readString start (position + 6) (charOfCode high :: done)
            ('\\' :: 'u' :: a' :: b' :: c' :: d' :: next' :: rest')
      | next, rest => readString start (position + 6) (charOfCode high :: done) (next :: rest)
  | '\\' :: 'u' :: _ => .error ⟨.badUnicodeEscape, position + 1⟩
  | '\\' :: c :: rest =>
    match simpleEscape? c with
    | some e => readString start (position + 2) (e :: done) rest
    | none => .error ⟨.badEscape, position⟩
  | c :: rest =>
    -- Line feeds are control characters too: a string ends on its line.
    if c.toNat < 32 then .error ⟨.controlCharacter, position⟩
    else readString start (position + 1) (c :: done) rest

/-- An ASCII digit. -/
def isAsciiDigit (c : Char) : Bool := 48 ≤ c.toNat && c.toNat ≤ 57

/-- The whole part of a number: zero alone, or digits that do not begin with zero. -/
def wholePart? : List Char → Option (List Char × List Char)
  | '0' :: rest => some (['0'], rest)
  | c :: rest =>
    if isAsciiDigit c then
      some (c :: rest.takeWhile isAsciiDigit, rest.dropWhile isAsciiDigit)
    else none
  | [] => none

/-- The fraction of a number, if a point with a digit behind it follows. -/
def fraction : List Char → List Char × List Char
  | '.' :: c :: rest =>
    if isAsciiDigit c then
      ('.' :: c :: rest.takeWhile isAsciiDigit, rest.dropWhile isAsciiDigit)
    else ([], '.' :: c :: rest)
  | cs => ([], cs)

/-- The exponent of a number, if its mark with a digit behind it follows. -/
def exponent : List Char → List Char × List Char
  | [] => ([], [])
  | c :: rest =>
    if c = 'e' ∨ c = 'E' then
      let (sign, body) := match rest with
        | '+' :: body => (['+'], body)
        | '-' :: body => (['-'], body)
        | body => ([], body)
      let ds := body.takeWhile isAsciiDigit
      if ds.isEmpty then ([], c :: rest)
      else (c :: (sign ++ ds), body.dropWhile isAsciiDigit)
    else ([], c :: rest)

/-- A number: `Number.readInt?` reads it if it has neither a fraction nor an exponent, and
`Number.readDouble?` if it has. -/
def readNumber? (position : Nat) (cs : List Char) : Option (Reading Value) :=
  let (sign, body) := match cs with
    | '-' :: body => (['-'], body)
    | body => ([], body)
  (wholePart? body).bind fun (whole, rest) =>
    let (part, rest) := fraction rest
    let (power, rest) := exponent rest
    let text := sign ++ whole ++ part ++ power
    -- A fraction or an exponent makes it a number with a point, even if its worth is an integer.
    let value? := if part.isEmpty && power.isEmpty then (Number.readInt? text).map Value.int
      else (Number.readDouble? text).map Value.float
    value?.map fun value => ⟨value, position + text.length, rest⟩

/-- A name at the front of a text. -/
def name? (name : String) (value : Value) (position : Nat) (cs : List Char) :
    Option (Reading Value) :=
  if name.toList.isPrefixOf cs then
    some ⟨value, position + name.length, cs.drop name.length⟩
  else none

/-- The names and numbers, tried in order; where none begins, no value does. -/
def readAtom (position : Nat) (cs : List Char) : Except Error (Reading Value) :=
  let found := name? "null" .null position cs
    <|> name? "true" (.bool true) position cs
    <|> name? "false" (.bool false) position cs
    <|> name? "NaN" (.float (.nan 0)) position cs
    <|> name? "Infinity" (.float (.infinite false)) position cs
    <|> name? "-Infinity" (.float (.infinite true)) position cs
    <|> readNumber? position cs
  match found with
  | some r => .ok r
  | none => .error ⟨.noValue, position⟩

mutual

/-- The value that begins at the front of a text. `fuel` bounds the nesting. -/
def readValue (fuel : Nat) (position : Nat) (cs : List Char) :
    Except Error (Reading Value) :=
  match fuel with
  | 0 => .error ⟨.noValue, position⟩
  | fuel + 1 =>
    match cs with
    | '"' :: rest => do
      let r ← readString position (position + 1) [] rest
      return ⟨.str (String.ofList r.value), r.position, r.rest⟩
    | '[' :: rest => do
      let (p, cs) := skipSpace (position + 1) rest
      match cs with
      | ']' :: rest => return ⟨.list [], p + 1, rest⟩
      | cs =>
        let r ← readItems fuel p [] cs
        return ⟨.list r.value, r.position, r.rest⟩
    | '\x7b' :: rest => do
      let (p, cs) := skipSpace (position + 1) rest
      match cs with
      | '\x7d' :: rest => return ⟨.mapping [], p + 1, rest⟩
      | cs =>
        let r ← readMembers fuel p [] cs
        return ⟨.mapping r.value, r.position, r.rest⟩
    | cs => readAtom position cs

/-- The items of an array from one of them to the closing bracket; `done` holds those before, last
one first. A comma has an item behind it. -/
def readItems (fuel : Nat) (position : Nat) (done : List Value) (cs : List Char) :
    Except Error (Reading (List Value)) :=
  match fuel with
  | 0 => .error ⟨.noValue, position⟩
  | fuel + 1 => do
    let r ← readValue fuel position cs
    let done := r.value :: done
    let (p, cs) := skipSpace r.position r.rest
    match cs with
    | ']' :: rest => return ⟨done.reverse, p + 1, rest⟩
    | ',' :: rest =>
      let (p, cs) := skipSpace (p + 1) rest
      readItems fuel p done cs
    | _ => throw ⟨.noComma, p⟩

/-- The members of an object from a key to the closing brace, added to those in `done` by
`Entries.put`, so that a key that comes again keeps its place. -/
def readMembers (fuel : Nat) (position : Nat) (done : List (Scalar × Value)) (cs : List Char) :
    Except Error (Reading (List (Scalar × Value))) :=
  match fuel with
  | 0 => .error ⟨.noKey, position⟩
  | fuel + 1 =>
    match cs with
    | '"' :: rest => do
      let k ← readString position (position + 1) [] rest
      let (p, cs) := skipSpace k.position k.rest
      match cs with
      | ':' :: rest =>
        let (p, cs) := skipSpace (p + 1) rest
        let r ← readValue fuel p cs
        let done := Entries.put (.str (String.ofList k.value)) r.value done
        let (p, cs) := skipSpace r.position r.rest
        match cs with
        | '\x7d' :: rest => return ⟨done, p + 1, rest⟩
        | ',' :: rest =>
          let (p, cs) := skipSpace (p + 1) rest
          readMembers fuel p done cs
        | _ => throw ⟨.noComma, p⟩
      | _ => throw ⟨.noColon, p⟩
    | _ => .error ⟨.noKey, position⟩

end

/-- The value of a JSON text, with nothing but spaces around it. Every recursion leaves at least one
character behind or one level of nesting, so twice the length of the text is fuel enough. -/
def read (text : List Char) : Except Error Value :=
  match text with
  | '\ufeff' :: _ => .error ⟨.byteOrderMark, 0⟩
  | text => do
    let (p, cs) := skipSpace 0 text
    let r ← readValue (2 * text.length + 2) p cs
    let (p, cs) := skipSpace r.position r.rest
    if cs.isEmpty then return r.value else throw ⟨.extraData, p⟩

end SchemaForge.Json
