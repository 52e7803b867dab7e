import SchemaForge.Number.Digits
import SchemaForge.Number.Double
import SchemaForge.Text.Blank
import SchemaForge.Text.Digit

/-!
# Reading numbers

The text of an integer is an optional sign and decimal digits of any script; a single underscore
may stand between two digits. The text of a binary64 number has besides an optional point and an
optional exponent, with at least one digit before the exponent, or is one of the names `inf`,
`infinity` and `nan` in any case. Blanks around either are ignored. A number whose text has more
digits than the type is rounded once, from its exact value.
-/

namespace SchemaForge.Number

/-- The text without the blanks at its two ends. -/
def trimBlank (cs : List Char) : List Char :=
  ((cs.dropWhile Text.isNumberBlank).reverse.dropWhile Text.isNumberBlank).reverse

/-- The sign in front of a number, and the rest. -/
def takeSign : List Char → Bool × List Char
  | '-' :: rest => (true, rest)
  | '+' :: rest => (false, rest)
  | cs => (false, cs)

/-- The digits that continue a run, each one after at most one underscore, and the rest. An
underscore without a digit behind it belongs to the rest. -/
def digitTail : List Char → List Nat × List Char
  | [] => ([], [])
  | '_' :: c :: rest =>
    match Text.digitValue? c with
    | some d => let (ds, rest) := digitTail rest; (d :: ds, rest)
    | none => ([], '_' :: c :: rest)
  | c :: rest =>
    match Text.digitValue? c with
    | some d => let (ds, rest) := digitTail rest; (d :: ds, rest)
    | none => ([], c :: rest)

/-- The values of the digits at the front, and the rest. -/
def digitRun : List Char → List Nat × List Char
  | [] => ([], [])
  | c :: rest =>
    match Text.digitValue? c with
    | some d => let (ds, rest) := digitTail rest; (d :: ds, rest)
    | none => ([], c :: rest)

/-- The integer that a text stands for: a sign, digits of any script (`digitRun`), and nothing else
between the blanks. -/
def readInt? (cs : List Char) : Option Int :=
  let (negative, body) := takeSign (trimBlank cs)
  match digitRun body with
  | ([], _) => none
  | (ds, []) =>
    let n : Int := ofDigits 10 ds
    some (if negative then -n else n)
  | _ => none

/-- The exponent that ends a number: nothing, or `e` with an optional sign and digits. -/
def readExponent? : List Char → Option Int
  | [] => some 0
  | c :: rest =>
    if c = 'e' ∨ c = 'E' then
      let (negative, body) := takeSign rest
      match digitRun body with
      | ([], _) => none
      | (ds, []) =>
        let n : Int := ofDigits 10 ds
        some (if negative then -n else n)
      | _ => none
    else none

/-- A magnitude in decimal notation, rounded once by `Double.ofDecimal` from all of its digits. -/
def readMagnitude? (negative : Bool) (cs : List Char) : Option Double :=
  let (whole, rest) := digitRun cs
  let (part, rest) := match rest with
    | '.' :: rest => digitRun rest
    | rest => ([], rest)
  if whole.isEmpty && part.isEmpty then none
  else (readExponent? rest).map fun e =>
    Double.ofDecimal negative (ofDigits 10 (whole ++ part)) (e - part.length)

/-- The binary64 number that a text stands for: one of the names without regard to case, or a
magnitude with a sign. -/
def readDouble? (cs : List Char) : Option Double :=
  let (negative, body) := takeSign (trimBlank cs)
  let name := String.ofList (body.map Char.toLower)
  if name = "inf" ∨ name = "infinity" then some (.infinite negative)
  else if name = "nan" then some (.nan 0)
  else readMagnitude? negative body

end SchemaForge.Number
