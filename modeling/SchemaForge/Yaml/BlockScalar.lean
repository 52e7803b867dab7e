import SchemaForge.Yaml.Cursor

/-!
# Block scalars

The lines below a header that are indented deeper than what is around them. A literal scalar keeps
its line endings; in a folded one a single line ending between two lines of text becomes a space.
The header may set the indentation and say whether the line endings at the end are kept, dropped
or, where it says nothing, cut down to one.
-/

namespace SchemaForge.Yaml

/-- What becomes of the line endings at the end. -/
inductive Chomping where
  /-- All are dropped. -/
  | drop
  /-- One is left. -/
  | clip
  /-- All are kept. -/
  | keep
  deriving DecidableEq

/-- The chomping that a sign in a header asks for. -/
def chomping? : Option Char → Option Chomping
  | some '+' => some .keep
  | some '-' => some .drop
  | _ => none

/-- The indentation that a digit in a header asks for; it must not be zero. -/
def increment? (c : Option Char) : Outcome Cause (Option Nat) :=
  match c with
  | some c =>
    if '1' ≤ c ∧ c ≤ '9' then .ok (some (c.toNat - 48))
    else if c = '0' then refuse .badHeader
    else .ok none
  | none => .ok none

/-- The chomping and the indentation of a header, in either order and each at most once. -/
def blockHeader (p : Cursor) : Outcome Cause ((Chomping × Option Nat) × Cursor) := do
  match chomping? p.peek with
  | some chomping =>
    let p := p.next
    match ← increment? p.peek with
    | some n => return ((chomping, some n), p.next)
    | none => return ((chomping, none), p)
  | none =>
    match ← increment? p.peek with
    | some n =>
      let p := p.next
      match chomping? p.peek with
      | some chomping => return ((chomping, some n), p.next)
      | none => return ((.clip, some n), p)
    | none => return ((.clip, none), p)

/-- The cursor behind the end of a line that may hold only blanks and a comment. -/
def endOfLine (cause : Cause) (p : Cursor) : Outcome Cause Cursor :=
  let p := p.skipSpaces
  let p := if p.peek == some '#' then p.skipLine else p
  if endsLine p.peek then .ok p.lineBreak.2 else refuse cause

/-- The line endings before the first line of text, and the deepest column that spaces among them
reach; that column is the indentation where the header sets none. -/
def leadingLines (fuel : Nat) (deepest : Nat) (p : Cursor) : (List Char × Nat) × Cursor :=
  match fuel with
  | 0 => (([], deepest), p)
  | fuel + 1 =>
    if p.peek == some ' ' then
      let p := p.next
      leadingLines fuel (max deepest p.column) p
    else match p.lineBreak with
      | ([], p) => (([], deepest), p)
      | (ending, p) =>
        let ((more, deepest), p) := leadingLines fuel deepest p
        ((ending ++ more, deepest), p)

/-- The cursor behind the spaces before a column. -/
def skipIndent (fuel indent : Nat) (p : Cursor) : Cursor :=
  match fuel with
  | 0 => p
  | fuel + 1 =>
    if p.column < indent && p.peek == some ' ' then skipIndent fuel indent p.next else p

/-- The line endings before the next line of text, whose indentation is passed over. -/
def emptyLines (fuel indent : Nat) (p : Cursor) : List Char × Cursor :=
  match fuel with
  | 0 => ([], p)
  | fuel + 1 =>
    let p := skipIndent (p.rest.length + 1) indent p
    match p.lineBreak with
    | ([], p) => ([], p)
    | (ending, p) =>
      let (more, p) := emptyLines fuel indent p
      (ending ++ more, p)

/-- A blank at the start of a line of text, which keeps the line from being folded. -/
def startsBlank (p : Cursor) : Bool := p.sees fun c => c == ' ' || c == '\t'

/-- The lines of a block scalar from the first line of text. `before` are the line endings since the
last one; the result ends with what is left for chomping: the last line ending and the empty lines
behind it. -/
def blockLines (folded : Bool) (indent fuel : Nat) (before : List Char) (p : Cursor) :
    (List Char × List Char × List Char) × Cursor :=
  match fuel with
  | 0 => (([], [], before), p)
  | fuel + 1 =>
    if p.column == indent && p.peek.isSome then
      let startedBlank := startsBlank p
      let (text, p) := p.takeWhile fun c => !isBreak c
      let (ending, p) := p.lineBreak
      let (empty, p) := emptyLines (p.rest.length + 1) indent p
      if p.column == indent && p.peek.isSome then
        -- A line ending folds only between two lines that begin with no blank.
        let folds := folded && ending == ['\n'] && !startedBlank && !startsBlank p
        let joint := if folds then (if empty.isEmpty then [' '] else []) else ending
        let ((more, tail), p) := blockLines folded indent fuel empty p
        ((before ++ text ++ joint ++ more, tail), p)
      else ((before ++ text, ending, empty), p)
    else (([], [], before), p)

/-- The block scalar at the cursor, which stands before its header; `outer` is the indentation of
what is around it. -/
def blockScalar (folded : Bool) (outer : Int) (p : Cursor) : Outcome Cause (String × Cursor) := do
  let ((chomping, increment), p) ← blockHeader p.next
  if !endsWord p.peek then refuse .badHeader
  let p ← endOfLine .badHeader p
  -- A block scalar is indented by one column at least, even at the top.
  let least := (outer + 1).toNat.max 1
  let (indent, (before, p)) := match increment with
    | some n =>
      let indent := least + n - 1
      (indent, emptyLines (p.rest.length + 1) indent p)
    | none =>
      let ((before, deepest), p) := leadingLines (p.rest.length + 1) 0 p
      (max least deepest, before, p)
  let ((text, ending, empty), p) := blockLines folded indent (p.rest.length + 1) before p
  let tail := match chomping with
    | .drop => []
    | .clip => ending
    | .keep => ending ++ empty
  return (String.ofList (text ++ tail), p)

end SchemaForge.Yaml
