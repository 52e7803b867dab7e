import SchemaForge.Yaml.Cursor

/-!
# Quoted scalars

A text in single quotes stands for itself, with a doubled quote for one; in double quotes a
backslash begins an escape. A line ending inside becomes a space, and of several line endings in a
row the first is dropped. Blanks around a line ending are left out.
-/

namespace SchemaForge.Yaml

/-- The character that an escape of one letter stands for. -/
def simpleEscape? : Char → Option Char
  | '0' => some '\x00'
  | 'a' => some '\x07'
  | 'b' => some '\x08'
  | 't' => some '\t'
  | '\t' => some '\t'
  | 'n' => some '\n'
  | 'v' => some '\x0b'
  | 'f' => some '\x0c'
  | 'r' => some '\r'
  | 'e' => some '\x1b'
  | ' ' => some ' '
  | '"' => some '"'
  | '\\' => some '\\'
  | '/' => some '/'
  | 'N' => some '\x85'
  | '_' => some '\xa0'
  | 'L' => some '\u2028'
  | 'P' => some '\u2029'
  | _ => none

/-- How many digits an escape by number has. -/
def codeLength? : Char → Option Nat
  | 'x' => some 2
  | 'u' => some 4
  | 'U' => some 8
  | _ => none

/-- The number that hexadecimal digits make. -/
def hexNumber? (digits : List Char) : Option Nat :=
  (digits.mapM hexDigit?).map (Number.ofDigits 16)

/-- The character of a number. A number beyond the last character breaks the reading down, in one
of two ways; half of a pair of surrogates is read as the replacement character. -/
def charOfNumber (n : Nat) : Except Fault Char :=
  if n.isValidChar then .ok (Char.ofNat n)
  else if n < 0x110000 then .ok '\ufffd'
  else if n < 0x80000000 then .error .badValue
  else .error .outOfRange

/-- The line endings at the start of a line, with the blanks between them left out. -/
def blankLines (fuel : Nat) (p : Cursor) : Outcome Cause (List Char × Cursor) :=
  match fuel with
  | 0 => .ok ([], p)
  | fuel + 1 =>
    if atSeparator p then refuse .badQuoted
    else
      let p := p.skipWhile fun c => c == ' ' || c == '\t'
      match p.lineBreak with
      | ([], p) => .ok ([], p)
      | (ending, p) => do
        let (more, p) ← blankLines fuel p
        return (ending ++ more, p)

/-- What the blanks and line endings at the cursor stand for: themselves on one line, and else a
space or line feeds. -/
def foldedBlank (p : Cursor) : Outcome Cause (List Char × Cursor) :=
  let (blanks, p) := p.takeWhile fun c => c == ' ' || c == '\t'
  match p.lineBreak with
  | ([], p) => .ok (blanks, p)
  | (ending, p) => do
    let (more, p) ← blankLines (p.rest.length + 1) p
    if ending ≠ ['\n'] then return (ending ++ more, p)
    else return (if more.isEmpty then [' '] else more, p)

/-- What the escape behind a backslash stands for: a character, or nothing where it joins two
lines. -/
def escape (p : Cursor) : Outcome Cause (List Char × Cursor) := do
  let some c := p.peek | refuse .badQuoted
  match simpleEscape? c, codeLength? c with
  | some e, _ => return ([e], p.next)
  | none, some n =>
    let digits := p.next.rest.take n
    let some code := hexNumber? digits | refuse .badQuoted
    if digits.length < n then refuse .badQuoted
    let e ← charOfNumber code
    return ([e], p.next.skip n)
  -- A backslash at the end of a line joins it to the next one.
  | none, none =>
    match p.lineBreak with
    | ([], _) => refuse .badQuoted
    | (_, p) => blankLines (p.rest.length + 1) p

/-- The rest of a quoted scalar, up to its closing quote; `done` is what was read, backwards. -/
def quotedRest (double : Bool) (fuel : Nat) (done : List Char) (p : Cursor) :
    Outcome Cause (String × Cursor) :=
  match fuel with
  | 0 => refuse .badQuoted
  | fuel + 1 =>
    match p.peek with
    | none => refuse .badQuoted
    | some c =>
      if !double && c == '\'' && p.ahead 1 == some '\'' then
        quotedRest double fuel ('\'' :: done) (p.skip 2)
      else if c == (if double then '"' else '\'') then
        .ok (String.ofList done.reverse, p.next)
      else if double && c == '\\' then do
        let (text, p) ← escape p.next
        quotedRest double fuel (text.reverse ++ done) p
      else if c == ' ' || c == '\t' || isBreak c then do
        let (text, p) ← foldedBlank p
        quotedRest double fuel (text.reverse ++ done) p
      else quotedRest double fuel (c :: done) p.next

/-- The quoted scalar at the cursor, which stands before its opening quote. -/
def quotedScalar (double : Bool) (p : Cursor) : Outcome Cause (String × Cursor) :=
  quotedRest double (p.rest.length + 1) [] p.next

end SchemaForge.Yaml
