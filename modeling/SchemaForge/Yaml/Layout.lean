import SchemaForge.Yaml.PlainScalar
import SchemaForge.Yaml.QuotedScalar
import SchemaForge.Yaml.Token
import SchemaForge.Value.Entries

/-!
# Layout

`tokens` turns a text into tokens. Outside of flow collections indentation makes the structure: a
deeper column begins a block collection, and a column further out ends those that are deeper.

That a node is a key shows only at the colon behind it. So the place of every node that may turn
out to be a key is remembered, and at the colon the token that announces the key is put in there.
A key may not span lines or be longer than 1024 characters; at the indentation of its mapping a
node has to be a key.
-/

namespace SchemaForge.Yaml

/-- The place of a node that may turn out to be a key, and what decides whether it still may. -/
structure KeyPlace where
  /-- The number of tokens before the node. -/
  token : Nat
  /-- Whether the node has to be a key. -/
  required : Bool
  /-- The number of characters before the node. -/
  index : Nat
  /-- The line of the node. -/
  line : Nat
  /-- The column of the node. -/
  column : Nat

/-- The tokens of the part of a text that was read, and what the rest depends on: the indentation
and the possible keys. -/
structure Layout where
  /-- The rest of the text. -/
  cursor : Cursor
  /-- The tokens, the last one first. -/
  tokens : List Token := []
  /-- The number of tokens. -/
  count : Nat := 0
  /-- The number of flow collections around the cursor. -/
  depth : Nat := 0
  /-- The column of the innermost block collection. -/
  indent : Int := -1
  /-- The columns of the block collections around it. -/
  outer : List Int := []
  /-- Whether a key may begin at the cursor. -/
  keyAllowed : Bool := true
  /-- The possible keys by the depth at which they stand. -/
  keys : List (Nat × KeyPlace) := []

namespace Layout

/-- Whether the cursor is in a flow collection. -/
def inFlow (s : Layout) : Bool := s.depth != 0

/-- The layout with one more token. -/
def emit (token : Token) (s : Layout) : Layout :=
  { s with tokens := token :: s.tokens, count := s.count + 1 }

/-- The layout with a token put in behind the first `n`, where a possible key was remembered. -/
def insert (n : Nat) (token : Token) (s : Layout) : Layout :=
  let behind := s.count - n
  { s with
    tokens := s.tokens.take behind ++ token :: s.tokens.drop behind
    count := s.count + 1 }

/-- The layout with the cursor behind `n` more characters, for which a token stands. -/
def sign (n : Nat) (token : Token) (s : Layout) : Layout :=
  { s with cursor := s.cursor.skip n }.emit token

/-! ## Possible keys -/

/-- The layout without the possible key at this depth. -/
def dropKey (s : Layout) : Outcome Cause Layout :=
  match Entries.get? s.depth s.keys with
  | none => .ok s
  | some key =>
    if key.required then refuse .noColon
    else .ok { s with keys := Entries.remove s.depth s.keys }

/-- The layout with the node at the cursor as the possible key at this depth; it has to be one at
the indentation of its mapping. -/
def saveKey (s : Layout) : Outcome Cause Layout := do
  if s.keyAllowed then
    let s ← s.dropKey
    let key : KeyPlace :=
      { token := s.count
        required := !s.inFlow && s.indent == s.cursor.column
        index := s.cursor.index
        line := s.cursor.line
        column := s.cursor.column }
    return { s with keys := Entries.put s.depth key s.keys }
  else return s

/-- Whether a possible key is too far back to be one: on another line, or more than 1024 characters
before. -/
def isStale (s : Layout) (key : KeyPlace) : Bool :=
  key.line != s.cursor.line || 1024 < s.cursor.index - key.index

/-- The layout without the possible keys that are too far back. -/
def dropStale (s : Layout) : Outcome Cause Layout :=
  if s.keys.any fun k => s.isStale k.2 && k.2.required then refuse .noColon
  else .ok { s with keys := s.keys.filter fun k => !s.isStale k.2 }

/-! ## Indentation -/

/-- Ends the block collections that begin further in than a column. -/
def unwindTo (column : Int) : List Int → Layout → Layout
  | [], s => s
  | i :: outer, s =>
    if column < s.indent then unwindTo column outer ({ s with indent := i, outer }.emit .blockEnd)
    else s

/-- Ends the block collections that begin further in than a column; in a flow collection
indentation means nothing. -/
def unwind (column : Int) (s : Layout) : Layout :=
  if s.inFlow then s else unwindTo column s.outer s

/-- Begins a block collection at a column, if that is further in. -/
def indentTo (column : Nat) (start : Layout → Layout) (s : Layout) : Layout :=
  if s.indent < column then start { s with indent := column, outer := s.indent :: s.outer } else s

/-! ## Between tokens -/

/-- The cursor behind spaces, comments and line endings, and whether there was a line ending. -/
def skipBlank (fuel : Nat) (p : Cursor) : Bool × Cursor :=
  match fuel with
  | 0 => (false, p)
  | fuel + 1 =>
    let p := p.skipSpaces
    let p := if p.peek == some '#' then p.skipLine else p
    match p.lineBreak with
    | ([], p) => (false, p)
    | (_, p) => (true, (skipBlank fuel p).2)

/-- The layout before the next token: blanks are passed over, stale keys are dropped, and
collections that end here are ended. -/
def toNext (s : Layout) : Outcome Cause Layout := do
  let p := s.cursor
  let p := if p.index == 0 && p.peek == some '\ufeff' then p.next else p
  let (broken, p) := skipBlank (p.rest.length + 1) p
  let s := { s with cursor := p, keyAllowed := s.keyAllowed || (broken && !s.inFlow) }
  let s ← s.dropStale
  return s.unwind p.column

/-! ## Tokens by their signs -/

/-- A line that belongs to no block collection. -/
def outermost (s : Layout) : Outcome Cause Layout := do
  let s ← (s.unwind (-1)).dropKey
  return { s with keyAllowed := false }

/-- The start of a flow collection, which may be a key as a whole. -/
def openFlow (token : Token) (s : Layout) : Outcome Cause Layout := do
  let s ← s.saveKey
  return { s with depth := s.depth + 1, keyAllowed := true }.sign 1 token

/-- The end of a flow collection. -/
def closeFlow (token : Token) (s : Layout) : Outcome Cause Layout := do
  let s ← s.dropKey
  if s.inFlow then return { s with depth := s.depth - 1, keyAllowed := false }.sign 1 token
  else refuse .badStructure

/-- A comma in a flow collection. -/
def comma (s : Layout) : Outcome Cause Layout := do
  let s ← { s with keyAllowed := true }.dropKey
  return s.sign 1 .comma

/-- A dash before an item, a question mark before a key, or a colon that no possible key precedes.
Outside of flow collections it may stand only where a key may, and begins a block collection. -/
def entrySign (start token : Token) (keyAllowed : Bool) (s : Layout) : Outcome Cause Layout := do
  if !s.inFlow && !s.keyAllowed then refuse .misplaced
  let s := if s.inFlow then s else s.indentTo s.cursor.column (·.emit start)
  let s ← { s with keyAllowed }.dropKey
  return s.sign 1 token

/-- A colon. The token that announces its key, and the start of the mapping if it is the first, are
put in before the key. -/
def colon (s : Layout) : Outcome Cause Layout :=
  match Entries.get? s.depth s.keys with
  | some key =>
    let s := { s with keys := Entries.remove s.depth s.keys }.insert key.token .key
    let s := if s.inFlow then s else s.indentTo key.column (·.insert key.token .mappingStart)
    -- Behind the value of this key no second one may begin on the line.
    .ok ({ s with keyAllowed := false }.sign 1 .value)
  | none => entrySign .mappingStart .value (!s.inFlow) s

/-- A part of a node that may be a key as a whole. -/
def nodePart (read : Cursor → Outcome Cause (Token × Cursor)) (s : Layout) :
    Outcome Cause Layout := do
  let s ← s.saveKey
  let (token, cursor) ← read s.cursor
  return { s with cursor, keyAllowed := false }.emit token

/-- A quoted scalar. -/
def quoted (double : Bool) : Layout → Outcome Cause Layout :=
  nodePart fun p => do
    let (text, p) ← quotedScalar double p
    return (.scalar text false, p)

/-- A block scalar. -/
def block (folded : Bool) (s : Layout) : Outcome Cause Layout := do
  let s ← { s with keyAllowed := true }.dropKey
  let (text, cursor) ← blockScalar folded s.indent s.cursor
  return { s with cursor }.emit (.scalar text false)

/-- A plain scalar. -/
def plain (s : Layout) : Outcome Cause Layout := do
  let s ← s.saveKey
  let ((text, broken), cursor) := plainScalar s.inFlow s.indent s.cursor
  -- A key may follow only on a new line.
  return { s with cursor, keyAllowed := broken }.emit (.scalar text true)

/-- Whether a plain scalar begins with a character, given the one that follows. -/
def beginsPlain (s : Layout) (c : Char) : Bool :=
  let signs := ['-', '?', ':', ',', '[', ']', '{', '}', '#', '&', '*', '!', '|', '>', '\'', '"',
    '%', '@', '`']
  (!endsToken (some c) && !signs.contains c)
    || (!endsToken (s.cursor.ahead 1)
      && (c == '-' || (!s.inFlow && (c == '?' || c == ':'))))

/-- Whether three of a character at the start of a line part documents here. -/
def partsDocuments (s : Layout) : Bool := s.cursor.column == 0 && atSeparator s.cursor

/-- Whether a sign is one, given the character that follows: outside of flow collections only
before a blank. -/
def isSign (s : Layout) : Bool := s.inFlow || endsToken (s.cursor.ahead 1)

/-- The token at the cursor, which begins with a given character. The order of the cases decides
where one sign has several meanings. -/
def token (c : Char) (s : Layout) : Outcome Cause Layout :=
  if c == '%' && s.cursor.column == 0 then do
    let s ← s.outermost
    let (d, cursor) ← directive s.cursor
    return { s with cursor }.emit (.directive d)
  else if c == '-' && s.partsDocuments then do return (← s.outermost).sign 3 .documentStart
  else if c == '.' && s.partsDocuments then do return (← s.outermost).sign 3 .documentEnd
  else if c == '[' then s.openFlow .flowSequenceStart
  else if c == '{' then s.openFlow .flowMappingStart
  else if c == ']' then s.closeFlow .flowSequenceEnd
  else if c == '}' then s.closeFlow .flowMappingEnd
  else if c == ',' then s.comma
  else if c == '-' && endsToken (s.cursor.ahead 1) then s.entrySign .sequenceStart .item true
  else if c == '?' && s.isSign then s.entrySign .mappingStart .key (!s.inFlow)
  else if c == ':' && s.isSign then s.colon
  else if c == '*' then s.nodePart fun p => (nodeName p).map fun r => (.reference r.1, r.2)
  else if c == '&' then s.nodePart fun p => (nodeName p).map fun r => (.anchor r.1, r.2)
  else if c == '!' then s.nodePart tag
  else if c == '|' && !s.inFlow then s.block false
  else if c == '>' && !s.inFlow then s.block true
  else if c == '\'' then s.quoted false
  else if c == '"' then s.quoted true
  else if s.beginsPlain c then s.plain
  else refuse .noToken

/-- The layout at the end of the text. -/
def finish (s : Layout) : Outcome Cause Layout := do
  return (← s.outermost).emit .streamEnd

/-- The layout when reading breaks down on the way to the end of the next token. The tokens from the
first possible key on are not known, since it depends on what follows whether a key is announced
there. -/
def breakDown (fault : Fault) (s : Layout) : Layout :=
  let keys := s.keys.filter fun k => !s.isStale k.2
  let known := keys.foldl (fun n k => min n k.2.token) s.count
  { s with tokens := s.tokens.drop (s.count - known), count := known }.emit (.broken fault)

/-- The layout of the whole text, one token after the other; each takes at least one character. -/
def complete (fuel : Nat) (s : Layout) : Outcome Cause Layout :=
  match fuel with
  | 0 => refuse .noToken
  | fuel + 1 => do
    let next ← s.toNext
    match next.cursor.peek with
    | none => next.finish
    | some c =>
      match next.token c with
      | .ok s => complete fuel s
      -- What is wrong with the text before the fault is told first, by the reader of tokens.
      | .error (.broken fault) => return s.breakDown fault
      | .error failure => .error failure

end Layout

/-- The tokens of a text, all of whose characters have to be allowed (`isAllowed`). -/
def tokens (text : List Char) : Outcome Cause (List Token) := do
  if !text.all isAllowed then refuse .unprintable
  let s : Layout := { cursor := { rest := text } }
  return (← s.complete (text.length + 1)).tokens.reverse

end SchemaForge.Yaml
