import SchemaForge.Yaml.Cursor

/-!
# Plain scalars

A text without quotes. It ends at a colon that a blank follows, at a comment, at a line that is
indented less than what is around it, and in a flow collection at the signs of such collections. A
line ending inside becomes a space, and of several in a row the first is dropped. Tabs end it.
-/

namespace SchemaForge.Yaml

/-- The signs of flow collections. -/
def isFlowSign (c : Char) : Bool := c == ',' || c == '[' || c == ']' || c == '{' || c == '}'

/-- Whether a plain scalar ends before a character, given the one that follows: a colon ends it only
before a blank. -/
def endsPlain (inFlow : Bool) (c : Char) (following : Option Char) : Bool :=
  endsToken (some c)
    || (c == ':' && (endsToken following || (inFlow && following.any isFlowSign)))
    || (inFlow && (isFlowSign c || c == '?'))

/-- The part of a plain scalar up to the next blank. -/
def plainWord (inFlow : Bool) : List Char → List Char
  | [] => []
  | c :: rest => if endsPlain inFlow c rest.head? then [] else c :: plainWord inFlow rest

/-- The line endings at the start of a line, with the spaces between them left out; none if a line
begins with a separator of documents. -/
def plainBreaks (fuel : Nat) (p : Cursor) : Option (List Char) × Cursor :=
  match fuel with
  | 0 => (some [], p)
  | fuel + 1 =>
    let p := p.skipSpaces
    match p.lineBreak with
    | ([], p) => (some [], p)
    | (ending, p) =>
      if atSeparator p then (none, p)
      else
        let (more, p) := plainBreaks fuel p
        (more.map (ending ++ ·), p)

/-- What the spaces and line endings at the cursor stand for, and whether there is a line ending.
Before a separator of documents they stand for nothing. -/
def plainBlank (p : Cursor) : (List Char × Bool) × Cursor :=
  let (spaces, p) := p.takeWhile (· == ' ')
  match p.lineBreak with
  | ([], p) => ((spaces, false), p)
  | (ending, p) =>
    if atSeparator p then (([], true), p)
    else match plainBreaks (p.rest.length + 1) p with
      | (none, p) => (([], true), p)
      | (some more, p) =>
        let text := if ending ≠ ['\n'] then ending ++ more
          else if more.isEmpty then [' '] else more
        ((text, true), p)

/-- The rest of a plain scalar. `done` is what was read, backwards, and `blank` what stands before
the next word if there is one; `broken` says whether a line ending was the last to be read. -/
def plainRest (inFlow : Bool) (indent : Int) (fuel : Nat) (done blank : List Char)
    (broken : Bool) (p : Cursor) : (String × Bool) × Cursor :=
  -- A number sign begins a comment only where a blank or nothing is before it.
  let word := if p.peek == some '#' then [] else plainWord inFlow p.rest
  match fuel, word with
  | 0, _ => ((String.ofList done.reverse, broken), p)
  | _, [] => ((String.ofList done.reverse, broken), p)
  | fuel + 1, word =>
    let done := word.reverse ++ (blank.reverse ++ done)
    let ((blank, broken), p) := plainBlank (p.skip word.length)
    if blank.isEmpty || p.peek == some '#' || (!inFlow && p.column < indent) then
      ((String.ofList done.reverse, broken), p)
    else plainRest inFlow indent fuel done blank broken p

/-- The plain scalar at the cursor, and whether a line ending follows it; `outer` is the
indentation of what is around it. -/
def plainScalar (inFlow : Bool) (outer : Int) (p : Cursor) : (String × Bool) × Cursor :=
  plainRest inFlow (outer + 1) (p.rest.length + 1) [] [] false p

end SchemaForge.Yaml
