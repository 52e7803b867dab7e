import SchemaForge.Yaml.Cursor
import SchemaForge.Value.Basic

/-!
# Tags

The tag of a node says of what kind its value is. A plain scalar without a tag has the kind that
its form shows: `yes` is a truth value, `0x1f` and `1:30` are integers, `1.5` and `.inf` are
binary64 numbers, `2024-01-31` is a date, and most other texts stand for themselves.
-/

namespace SchemaForge.Yaml

/-- The kind of a node, as its tag names it or as its form shows it. -/
inductive Tag where
  /-- The absent value. -/
  | null
  /-- A truth value. -/
  | bool
  /-- An integer. -/
  | int
  /-- A binary64 number. -/
  | float
  /-- A byte string. -/
  | binary
  /-- A date or a time. -/
  | timestamp
  /-- A list of keys with values, in order. -/
  | orderedMap
  /-- A list of keys with values. -/
  | pairs
  /-- A set. -/
  | set
  /-- A text. -/
  | str
  /-- A sequence. -/
  | seq
  /-- A mapping. -/
  | map
  /-- A key whose mapping is merged into the one around it. -/
  | merge
  /-- A key for the value that a mapping has as a scalar. -/
  | value
  /-- Any other kind. -/
  | other
  deriving DecidableEq, Repr, Inhabited

namespace Tag

/-- The names of the kinds, which follow the name of the vocabulary in a tag. -/
def names : List (String × Tag) :=
  [("null", null), ("bool", bool), ("int", int), ("float", float), ("binary", binary),
    ("timestamp", timestamp), ("omap", orderedMap), ("pairs", pairs), ("set", set), ("str", str),
    ("seq", seq), ("map", map), ("merge", merge), ("value", value)]

/-- The name of the vocabulary. -/
def vocabulary : String := "tag:yaml.org,2002:"

/-- The kind that a tag names: one of `names` behind the name of the vocabulary, and `other` if it
is none of them. -/
def ofText (tag : String) : Tag :=
  if vocabulary.toList.isPrefixOf tag.toList then
    (Entries.get? (String.ofList (tag.toList.drop vocabulary.length)) names).getD other
  else other

/-! ## The forms of plain scalars -/

/-- The spellings of the absent value. -/
def nullForms : List String := ["", "~", "null", "Null", "NULL"]

/-- The spellings of the truth values. -/
def boolForms : List String :=
  ["yes", "Yes", "YES", "no", "No", "NO", "true", "True", "TRUE", "false", "False", "FALSE",
    "on", "On", "ON", "off", "Off", "OFF"]

/-- The signs that stand for no value. -/
def signForms : List String := ["!", "&", "*"]

/-- The text without a sign at the front. -/
def unsigned : List Char → List Char
  | '-' :: rest => rest
  | '+' :: rest => rest
  | cs => cs

/-- A decimal digit. -/
def isDigit (c : Char) : Bool := '0' ≤ c && c ≤ '9'

/-- A decimal digit, or an underscore to set digits apart. -/
def isSpacedDigit (c : Char) : Bool := isDigit c || c == '_'

/-- Digits that are not empty and satisfy a condition. -/
def isRun (condition : Char → Bool) (cs : List Char) : Bool := !cs.isEmpty && cs.all condition

/-- The parts of a text between its colons. -/
def colonParts : List Char → List (List Char)
  | [] => [[]]
  | c :: rest =>
    if c == ':' then [] :: colonParts rest
    else match colonParts rest with
      | [] => [[c]]
      | part :: parts => (c :: part) :: parts

/-- A part of a number of base 60 behind the first: below 60, with or without a leading zero. -/
def isSixtieth : List Char → Bool
  | [a] => isDigit a
  | [a, b] => '0' ≤ a && a ≤ '5' && isDigit b
  | _ => false

/-- The form of an integer: binary, octal, decimal, hexadecimal or of base 60. `intOf` gives its
value. -/
def isInt (cs : List Char) : Bool :=
  match unsigned cs with
  | ['0'] => true
  | '0' :: 'b' :: digits => isRun (fun c => c == '0' || c == '1' || c == '_') digits
  | '0' :: 'x' :: digits => isRun (fun c => (hexDigit? c).isSome || c == '_') digits
  | '0' :: digits => isRun (fun c => ('0' ≤ c && c ≤ '7') || c == '_') digits
  | c :: rest =>
    if isDigit c then
      match colonParts (c :: rest) with
      | first :: parts => first.all isSpacedDigit && parts.all isSixtieth
      | [] => false
    else false
  | [] => false

/-- An exponent, which needs its sign, or nothing. -/
def isExponent : List Char → Bool
  | [] => true
  | e :: sign :: digits =>
    (e == 'e' || e == 'E') && (sign == '-' || sign == '+') && isRun isDigit digits
  | _ => false

/-- What follows the point of a number: digits, and an exponent. -/
def isFraction (cs : List Char) : Bool := isExponent (cs.dropWhile isSpacedDigit)

/-- The names of infinity behind the point. -/
def infinityForms : List String := ["inf", "Inf", "INF"]

/-- The names of NaN behind the point. -/
def nanForms : List String := ["nan", "NaN", "NAN"]

/-- The form of a number with a point in front. -/
def isPointed (signed : Bool) (cs : List Char) : Bool :=
  let text := String.ofList cs
  infinityForms.contains text
    || (!signed && (nanForms.contains text
      || (cs.head?.any isDigit && isFraction cs)))

/-- The form of a binary64 number: with a point, and perhaps of base 60. `floatOf` gives its
value. -/
def isFloat (cs : List Char) : Bool :=
  let body := unsigned cs
  match body with
  | '.' :: rest => isPointed (body.length != cs.length) rest
  | c :: _ =>
    if isDigit c then
      let whole := body.takeWhile (· ≠ '.')
      match body.dropWhile (· ≠ '.') with
      | '.' :: rest =>
        match colonParts whole with
        | [digits] => digits.all isSpacedDigit && isFraction rest
        | first :: parts =>
          first.all isSpacedDigit && parts.all isSixtieth && rest.all isSpacedDigit
        | [] => false
      | _ => false
    else false
  | [] => false

end Tag

/-! ## Dates and times -/

/-- The fields of a date and a time as they are written. -/
structure DateFields where
  /-- The four digits of the year. -/
  year : List Char
  /-- The digits of the month. -/
  month : List Char
  /-- The digits of the day. -/
  day : List Char
  /-- The digits of hour, minute, second and fraction. -/
  clock : Option (List Char × List Char × List Char × List Char)
  /-- The offset from universal time: its sign, and the digits of its hours and minutes. -/
  zone : Option (Bool × List Char × List Char)

/-- The digits at the front, at most `most`, and the rest; none unless there are `least`. -/
def digitsBetween? (least most : Nat) (cs : List Char) : Option (List Char × List Char) :=
  let digits := (cs.take most).takeWhile Tag.isDigit
  if least ≤ digits.length then some (digits, cs.drop digits.length) else none

/-- The text behind a character that has to be at the front. -/
def behind? (c : Char) : List Char → Option (List Char)
  | d :: rest => if c = d then some rest else none
  | [] => none

/-- The offset at the end of a time: nothing, `Z`, or a sign with hours and perhaps minutes. -/
def zone? (cs : List Char) : Option (Option (Bool × List Char × List Char)) :=
  match cs, cs.dropWhile fun c => c == ' ' || c == '\t' with
  | [], _ => some none
  | _, ['Z'] => some (some (false, ['0'], []))
  | _, sign :: rest =>
    if sign == '-' || sign == '+' then do
      let (hours, rest) ← digitsBetween? 1 2 rest
      match rest with
      | [] => return some (sign == '-', hours, [])
      | _ =>
        let (minutes, rest) ← digitsBetween? 2 2 (← behind? ':' rest)
        if rest.isEmpty then return some (sign == '-', hours, minutes) else none
    else none
  | _, [] => none

/-- The time of day behind a date: a `T` or blanks, and the time. -/
def clock? (cs : List Char) :
    Option ((List Char × List Char × List Char × List Char) × List Char) :=
  let start := match cs with
    | c :: rest =>
      if c == 'T' || c == 't' then some rest
      else if c == ' ' || c == '\t' then some (rest.dropWhile fun c => c == ' ' || c == '\t')
      else none
    | [] => none
  do
    let (hour, rest) ← digitsBetween? 1 2 (← start)
    let (minute, rest) ← digitsBetween? 2 2 (← behind? ':' rest)
    let (second, rest) ← digitsBetween? 2 2 (← behind? ':' rest)
    match rest with
    | '.' :: rest =>
      return ((hour, minute, second, rest.takeWhile Tag.isDigit), rest.dropWhile Tag.isDigit)
    | _ => return ((hour, minute, second, []), rest)

/-- The fields of a text that has the form of a date or a time; whether they name one is another
question (`Timestamp.isValid`). -/
def dateFields? (cs : List Char) : Option DateFields := do
  let (year, rest) ← digitsBetween? 4 4 cs
  let (month, rest) ← digitsBetween? 1 2 (← behind? '-' rest)
  let (day, rest) ← digitsBetween? 1 2 (← behind? '-' rest)
  if rest.isEmpty then return { year, month, day, clock := none, zone := none }
  else
    let (clock, rest) ← clock? rest
    return { year, month, day, clock := some clock, zone := ← zone? rest }

/-- Whether a plain text with the form of a date is one: a date without a time needs two digits
for month and day. -/
def DateFields.isPlain (d : DateFields) : Bool :=
  d.clock.isSome || (d.month.length == 2 && d.day.length == 2)

/-- The text without a line feed at its end. -/
def withoutLineFeed (cs : List Char) : List Char :=
  if cs.getLast? == some '\n' then cs.dropLast else cs

/-- The kind whose form a text has, the first one in this order. A line feed behind the form does
not count, but is no form by itself. -/
def Tag.ofPlain (text : String) : Tag :=
  let cs := withoutLineFeed text.toList
  let form := String.ofList cs
  if form.isEmpty && !text.isEmpty then str
  else if boolForms.contains form then bool
  -- A number of base 60 may have both forms, and the point decides.
  else if isFloat cs then float
  else if isInt cs then int
  else if form = "<<" then merge
  else if nullForms.contains form then null
  else if (dateFields? cs).any DateFields.isPlain then timestamp
  else if form = "=" then value
  else if signForms.contains form then other
  else str

end SchemaForge.Yaml
