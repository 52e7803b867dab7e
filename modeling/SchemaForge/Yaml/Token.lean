import SchemaForge.Yaml.BlockScalar

/-!
# Tokens

The tokens of a YAML text, and the ones among them that carry names: directives, anchors, aliases
and tags.
-/

namespace SchemaForge.Yaml

/-- A line for the reader of a document. -/
inductive Directive where
  /-- The version of YAML. -/
  | version (major minor : Nat)
  /-- A handle, and what it stands for at the start of tags. -/
  | handle (name start : String)
  /-- A directive without a meaning. -/
  | reserved
  deriving DecidableEq

/-- A token of a YAML text. The ends of block collections, and the starts of all that no sign of
their own announces, are tokens as well. -/
inductive Token where
  /-- A directive. -/
  | directive (d : Directive)
  /-- Three dashes, before a document. -/
  | documentStart
  /-- Three dots, behind a document. -/
  | documentEnd
  /-- The end of the text. -/
  | streamEnd
  /-- The start of a block sequence. -/
  | sequenceStart
  /-- The start of a block mapping. -/
  | mappingStart
  /-- The end of a block sequence or mapping. -/
  | blockEnd
  /-- The start of a sequence in brackets. -/
  | flowSequenceStart
  /-- The end of a sequence in brackets. -/
  | flowSequenceEnd
  /-- The start of a mapping in braces. -/
  | flowMappingStart
  /-- The end of a mapping in braces. -/
  | flowMappingEnd
  /-- A dash before an item. -/
  | item
  /-- A comma. -/
  | comma
  /-- A key follows. -/
  | key
  /-- A value follows. -/
  | value
  /-- A name for the node that follows. -/
  | anchor (name : String)
  /-- A name that stands for a node. -/
  | reference (name : String)
  /-- A tag for the node that follows: a handle, if it has one, and the rest. -/
  | tag (handle : Option String) (rest : String)
  /-- A scalar, with or without quotes or a header. -/
  | scalar (text : String) (plain : Bool)
  /-- The place at which reading breaks down. -/
  | broken (fault : Fault)
  deriving DecidableEq

/-- The name of an anchor or an alias, behind its sign. -/
def nodeName (p : Cursor) : Outcome Cause (String × Cursor) :=
  let (name, p) := p.next.takeWhile isNameChar
  let ends := endsToken p.peek
    || p.sees fun c => ['?', ':', ',', ']', '}', '%', '@', '`'].contains c
  if name.isEmpty || !ends then refuse .badName else .ok (String.ofList name, p)

/-! ## Tags -/

/-- The characters of tags besides letters and digits; a percent sign begins an escape. -/
def tagSigns : List Char :=
  ['-', ';', '/', '?', ':', '@', '&', '=', '+', '$', ',', '_', '.', '!', '~', '*', '\'', '(', ')',
    '[', ']', '%']

/-- The characters of tags. -/
def isTagChar (c : Char) : Bool := c.isAlphanum || tagSigns.contains c

/-- The bytes that the escapes at the front stand for, and the rest. -/
def escapedBytes (cause : Cause) : List Char → Outcome Cause (List UInt8 × List Char)
  | '%' :: a :: b :: rest =>
    match hexDigit? a, hexDigit? b with
    | some h, some l => do
      let (more, rest) ← escapedBytes cause rest
      return (UInt8.ofNat (16 * h + l) :: more, rest)
    | _, _ => refuse cause
  | '%' :: _ => refuse cause
  | rest => .ok ([], rest)

/-- The text of a tag with its escapes resolved; escapes in a row make UTF-8 together
(`escapedBytes`). -/
def unescapeTag (cause : Cause) (fuel : Nat) (text : List Char) : Outcome Cause String :=
  match fuel with
  | 0 => .ok ""
  | fuel + 1 =>
    let (plain, rest) := (text.takeWhile (· ≠ '%'), text.dropWhile (· ≠ '%'))
    if rest.isEmpty then .ok (String.ofList plain)
    else do
      let (bytes, rest) ← escapedBytes cause rest
      let some escaped := String.fromUTF8? bytes.toByteArray | refuse cause
      return String.ofList plain ++ escaped ++ (← unescapeTag cause fuel rest)

/-- The text of a tag at the cursor, which must not be empty. -/
def tagText (cause : Cause) (p : Cursor) : Outcome Cause (String × Cursor) := do
  let (text, p) := p.takeWhile isTagChar
  if text.isEmpty then refuse cause
  return (← unescapeTag cause (text.length + 1) text, p)

/-- The handle at the cursor: one exclamation mark, or two with a name between them. -/
def tagHandle (cause : Cause) (p : Cursor) : Outcome Cause (String × Cursor) :=
  if p.peek ≠ some '!' then refuse cause
  else if p.ahead 1 == some ' ' then .ok ("!", p.next)
  else
    let (name, p) := p.next.takeWhile isNameChar
    if p.peek ≠ some '!' then refuse cause
    else .ok (String.ofList ('!' :: name ++ ['!']), p.next)

/-- The tag at the cursor. A tag in angle brackets has no handle, and neither has the tag of a
single exclamation mark. -/
def tag (p : Cursor) : Outcome Cause (Token × Cursor) := do
  let (token, p) ← if p.ahead 1 == some '<' then do
      let (text, p) ← tagText .badTag (p.skip 2)
      if p.peek ≠ some '>' then refuse .badTag
      pure (Token.tag none text, p.next)
    else if endsToken (p.ahead 1) then pure (Token.tag none "!", p.next)
    else do
      -- Only a second exclamation mark in the word makes a handle of what is before it.
      let word := p.next.rest.takeWhile fun c => !endsWord (some c)
      let (handle, p) ← if word.contains '!' then tagHandle .badTag p else pure ("!", p.next)
      let (text, p) ← tagText .badTag p
      pure (Token.tag (some handle) text, p)
  if endsWord p.peek then return (token, p) else refuse .badTag

/-! ## Directives -/

/-- The number at the cursor. -/
def versionNumber (p : Cursor) : Outcome Cause (Nat × Cursor) :=
  let (digits, p) := p.takeWhile Char.isDigit
  if digits.isEmpty then refuse .badDirective
  else .ok (Number.ofDigits 10 (digits.map fun c => c.toNat - 48), p)

/-- The version of YAML at the cursor. -/
def versionDirective (p : Cursor) : Outcome Cause (Directive × Cursor) := do
  let (major, p) ← versionNumber p.skipSpaces
  if p.peek ≠ some '.' then refuse .badDirective
  let (minor, p) ← versionNumber p.next
  if endsWord p.peek then return (.version major minor, p) else refuse .badDirective

/-- The handle at the cursor, and what it stands for. -/
def handleDirective (p : Cursor) : Outcome Cause (Directive × Cursor) := do
  let (name, p) ← tagHandle .badDirective p.skipSpaces
  if p.peek ≠ some ' ' then refuse .badDirective
  let (start, p) ← tagText .badDirective p.skipSpaces
  if endsWord p.peek then return (.handle name start, p) else refuse .badDirective

/-- The directive at the cursor, which stands before its percent sign. One of an unknown name is
passed over. -/
def directive (p : Cursor) : Outcome Cause (Directive × Cursor) := do
  let (name, p) := p.next.takeWhile isNameChar
  if name.isEmpty || !endsWord p.peek then refuse .badDirective
  let (d, p) ← if name = "YAML".toList then versionDirective p
    else if name = "TAG".toList then handleDirective p
    else pure (.reserved, p.skipLine)
  return (d, ← endOfLine .badDirective p)

end SchemaForge.Yaml
