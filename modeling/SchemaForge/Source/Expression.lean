import SchemaForge.Source.Error
import SchemaForge.Source.Token

/-!
# Expressions of a module

The values that tokens describe, in the subset of the language that section 6.4 of the specification
names: strings, numbers, the three constants, objects, arrays, and calls of dotted names. The last
item of an object, an array or an argument list may be followed by a comma. A key that comes twice
keeps its first place and its last value.

Each function reads from the front of a list of tokens and gives back the tokens that follow.
`stop` is the length of the text, the place of an error at its end.
-/

namespace SchemaForge.Source

/-- The text of a single-quoted string as the contents of a double-quoted one: single quotes lose
their backslash and double quotes get one. Other escapes stay as they are. -/
def requote : List Char → List Char
  | [] => []
  | '\\' :: '\'' :: rest => '\'' :: requote rest
  | '"' :: rest => '\\' :: '"' :: requote rest
  | c :: rest => c :: requote rest

/-- The text that a string token stands for, by the rules of JSON (`Json.readString`) once it stands
between double quotes. -/
def decodeString (t : Token) : Except Error String :=
  let cs := match t.text.toList with
    | '\'' :: rest => '"' :: (requote rest.dropLast ++ ['"'])
    | cs => cs
  let fail (cause : Json.Cause) : Except Error String :=
    .error ⟨.badString t.text cause, some t.position⟩
  -- The scanner has checked the quotes, so the first character is one.
  match cs with
  | [] => fail .noValue
  | _ :: body =>
    match Json.readString 0 1 [] body with
    | .error e => fail e.cause
    | .ok r =>
      if (Json.skipSpace 0 r.rest).2.isEmpty then .ok (String.ofList r.value)
      else fail .extraData

/-- The number that a number token stands for: an integer unless it has a point or an exponent. The
scanner makes no number token that cannot be read. -/
def decodeNumber (text : String) : Value :=
  let cs := text.toList
  if cs.any (fun c => c == '.' || c == 'e' || c == 'E') then
    .float ((Number.readDouble? cs).getD (.nan 0))
  else .int ((Number.readInt? cs).getD 0)

/-- The next token; where there is none, the text ends too early. -/
def next (stop : Nat) : List Token → Except Error (Token × List Token)
  | [] => .error ⟨.unexpectedEnd, some stop⟩
  | t :: rest => .ok (t, rest)

/-- The next token, which has to have a given text. Its kind is not looked at, so a string whose
text is a word passes for the word. -/
def expect (stop : Nat) (text : String) (ts : List Token) : Except Error (Unit × List Token) := do
  let (t, rest) ← next stop ts
  if t.text = text then return ((), rest)
  else throw ⟨.expected text t.text, some t.position⟩

/-- The tokens behind the next one, if that has a given text and is no string. -/
def accept? (text : String) : List Token → Option (List Token)
  | [] => none
  | t :: rest => if t.text = text ∧ t.kind ≠ .string then some rest else none

/-- The key that a token stands for. -/
def decodeKey (t : Token) : Except Error String :=
  match t.kind with
  | .string => decodeString t
  | .name => .ok t.text
  | _ => .error ⟨.badKey t.text, some t.position⟩

/-- The names of a dotted name behind its first one, added to those in `path`, last one first. A dot
has a name behind it. -/
def parsePath (stop : Nat) (path : List String) (ts : List Token) :
    Except Error (List String × List Token) :=
  match _h : accept? "." ts with
  | none => .ok (path.reverse, ts)
  | some [] => .error ⟨.unexpectedEnd, some stop⟩
  | some (part :: rest) =>
    if part.kind = .name then parsePath stop (part.text :: path) rest
    else .error ⟨.noIdentifier, some part.position⟩
termination_by ts.length
decreasing_by
  cases ts with
  | nil => simp [accept?] at _h
  | cons t more =>
    simp only [accept?] at _h
    split at _h
    · cases _h
      simp only [List.length_cons]
      omega
    · cases _h

mutual

/-- A value at the front of the tokens. `fuel` bounds the nesting. `parseValue_eq_ok_iff` says what
is read by a grammar that knows neither fuel nor tokens left over. -/
def parseValue (stop : Nat) (fuel : Nat) (ts : List Token) : Except Error (Value × List Token) :=
  match fuel with
  | 0 => .error ⟨.unexpectedEnd, some stop⟩
  | fuel + 1 => do
    let (t, rest) ← next stop ts
    match t.kind with
    | .string => return (.str (← decodeString t), rest)
    | .number => return (decodeNumber t.text, rest)
    | .punctuation =>
      if t.text = "\x7b" then
        let (members, rest) ← parseMembers stop fuel [] rest
        return (.mapping members, rest)
      else if t.text = "[" then
        let (items, rest) ← parseItems stop "]" fuel [] rest
        return (.list items, rest)
      -- A closing mark, a comma and the like begin no value.
      else throw ⟨.unexpected t.text, some t.position⟩
    | .name =>
      if t.text = "true" then return (.bool true, rest)
      else if t.text = "false" then return (.bool false, rest)
      else if t.text = "null" then return (.null, rest)
      else
        let (path, rest) ← parsePath stop [t.text] rest
        match rest with
        -- A name by itself has no meaning: it has to be called.
        | p :: rest =>
          if p.text = "(" then
            let (arguments, rest) ← parseItems stop ")" fuel [] rest
            return (.call path arguments, rest)
          else throw ⟨.badReference path, some t.position⟩
        | [] => throw ⟨.badReference path, some t.position⟩

/-- The values up to a closing mark, added to those in `done`, last one first. A comma may stand
before the mark. -/
def parseItems (stop : Nat) (closing : String) (fuel : Nat) (done : List Value)
    (ts : List Token) : Except Error (List Value × List Token) :=
  match fuel with
  | 0 => .error ⟨.unexpectedEnd, some stop⟩
  | fuel + 1 =>
    match accept? closing ts with
    | some rest => .ok (done.reverse, rest)
    | none => do
      let (v, rest) ← parseValue stop fuel ts
      let done := v :: done
      match accept? "," rest with
      | some rest => parseItems stop closing fuel done rest
      | none =>
        let (_, rest) ← expect stop closing rest
        return (done.reverse, rest)

/-- The members of an object up to its closing brace, added to those in `done` by `Entries.put`, so
that a key that comes again keeps its place. -/
def parseMembers (stop : Nat) (fuel : Nat) (done : List (Scalar × Value))
    (ts : List Token) : Except Error (List (Scalar × Value) × List Token) :=
  match fuel with
  | 0 => .error ⟨.unexpectedEnd, some stop⟩
  | fuel + 1 =>
    match accept? "\x7d" ts with
    | some rest => .ok (done, rest)
    | none => do
      let (t, rest) ← next stop ts
      let key ← decodeKey t
      let (_, rest) ← expect stop ":" rest
      let (v, rest) ← parseValue stop fuel rest
      let done := Entries.put (.str key) v done
      match accept? "," rest with
      | some rest => parseMembers stop fuel done rest
      | none =>
        let (_, rest) ← expect stop "\x7d" rest
        return (done, rest)

end

/-- Fuel enough for a list of tokens: every second step of the recursion takes a token away, and
what is left is bounded by the nesting. -/
def fuelFor (ts : List Token) : Nat := 2 * ts.length + 2

end SchemaForge.Source
