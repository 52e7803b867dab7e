import SchemaForge.Number.Reading
import SchemaForge.Text.Base64
import SchemaForge.Yaml.Tag

/-!
# Values of scalars

What the text of a scalar is worth under the tag of its kind. A tag may be written in front of a
text that does not have the form of its kind; some such texts have a value all the same, and others
break the reading down.
-/

namespace SchemaForge.Yaml

/-- The text without the underscores that set digits apart. -/
def withoutSpacing (cs : List Char) : List Char := cs.filter (· ≠ '_')

/-- The sign of a number, and the rest. An empty text has no first character to look at. -/
def numberSign : List Char → Except Fault (Bool × List Char)
  | [] => .error .noItem
  | '-' :: rest => .ok (true, rest)
  | '+' :: rest => .ok (false, rest)
  | cs => .ok (false, cs)

/-! ## Integers -/

/-- The value of a digit: a decimal digit of any script, or a letter. -/
def digitOrLetter? (c : Char) : Option Nat :=
  if 'a' ≤ c ∧ c ≤ 'z' then some (c.toNat - 87)
  else if 'A' ≤ c ∧ c ≤ 'Z' then some (c.toNat - 55)
  else Text.digitValue? c

/-- The text without the sign of its base, `0b`, `0o` or `0x`. -/
def withoutBase (base : Nat) : List Char → List Char
  | '0' :: c :: rest =>
    -- The scanner of forms has taken the sign once; a second one is passed over here.
    if (base = 2 ∧ c.toLower = 'b') ∨ (base = 8 ∧ c.toLower = 'o') ∨ (base = 16 ∧ c.toLower = 'x')
    then rest else '0' :: c :: rest
  | cs => cs

/-- The integer of a text in a base; a sign of the base may stand in front (`withoutBase`). -/
def readBase (base : Nat) (cs : List Char) : Except Fault Int :=
  let (negative, body) := Number.takeSign (Number.trimBlank cs)
  match (withoutBase base body).mapM digitOrLetter? with
  | some (d :: ds) =>
    if (d :: ds).all (· < base) then
      let n : Int := Number.ofDigits base (d :: ds)
      .ok (if negative then -n else n)
    else .error .badValue
  | _ => .error .badValue

/-- The integer of a text in base 10. -/
def readDecimal (cs : List Char) : Except Fault Int :=
  match Number.readInt? cs with
  | some n => .ok n
  | none => .error .badValue

/-- The integer of a text without its sign, by the base that its first characters tell. -/
def unsignedInt (cs : List Char) : Except Fault Int :=
  match cs with
  | [] => .error .noItem
  | ['0'] => .ok 0
  | '0' :: 'b' :: rest => readBase 2 rest
  | '0' :: 'x' :: rest => readBase 16 rest
  | '0' :: rest => readBase 8 ('0' :: rest)
  | cs =>
    if cs.contains ':' then do
      let parts ← (Tag.colonParts cs).mapM readDecimal
      return parts.foldl (fun n d => 60 * n + d) 0
    else readDecimal cs

/-- The integer that a text is worth; its underscores are left out first. -/
def intOf (text : String) : Except Fault Int := do
  let (negative, body) ← numberSign (withoutSpacing text.toList)
  let n ← unsignedInt body
  return if negative then -n else n

/-! ## Binary64 numbers -/

/-- The binary64 number of a text. -/
def readFloat (cs : List Char) : Except Fault Double :=
  match Number.readDouble? cs with
  | some x => .ok x
  | none => .error .badValue

/-- A power of 60 as a binary64 number, if it is not beyond all of them. -/
def weight (power : Nat) : Except Fault Double :=
  match Double.ofInt (Nat.pow 60 power) with
  | .infinite _ => .error .outOfRange
  | x => .ok x

/-- The sum of numbers weighted by powers of 60, the first one by the power `power`. The sum is
taken in the order of the list, and each step is rounded. -/
def sumSixtieths (power : Nat) (sum : Double) : List Double → Except Fault Double
  | [] => .ok sum
  | x :: rest => do
    sumSixtieths (power + 1) (Double.plus sum (Double.times x (← weight power))) rest

/-- The binary64 number of a text without its sign. A NaN that has to be computed is one of its own,
with the given mark; the one that has a name is always the same. -/
def unsignedFloat (mark : Nat) (cs : List Char) : Except Fault Double :=
  if cs = ".inf".toList then .ok (.infinite false)
  else if cs = ".nan".toList then .ok (.nan 0)
  else if cs.contains ':' then do
    let parts ← (Tag.colonParts cs).mapM readFloat
    return (← sumSixtieths 0 (Double.ofInt 0) parts.reverse).marked mark
  else do return (← readFloat cs).marked mark

/-- The binary64 number that a text is worth. -/
def floatOf (mark : Nat) (text : String) : Except Fault Double := do
  let (negative, body) ← numberSign ((withoutSpacing text.toList).map Char.toLower)
  let x ← unsignedFloat mark body
  return if negative then x.negate else x

/-! ## Other kinds -/

/-- The truth value that a text is worth. -/
def boolOf (text : String) : Except Fault Bool :=
  let word := String.ofList (text.toList.map Char.toLower)
  if ["yes", "true", "on"].contains word then .ok true
  else if ["no", "false", "off"].contains word then .ok false
  else .error .noEntry

/-- The number that digits make. -/
def digitsNat (cs : List Char) : Nat := Number.ofDigits 10 (cs.map fun c => c.toNat - 48)

/-- The date or time that fields name. -/
def DateFields.toTimestamp (d : DateFields) : Timestamp :=
  { year := digitsNat d.year
    month := digitsNat d.month
    day := digitsNat d.day
    clock := d.clock.map fun (hour, minute, second, fraction) =>
      { hour := digitsNat hour
        minute := digitsNat minute
        second := digitsNat second
        microsecond := digitsNat ((fraction ++ List.replicate 6 '0').take 6)
        offset := d.zone.map fun (negative, hours, minutes) =>
          let seconds : Int := 3600 * digitsNat hours + 60 * digitsNat minutes
          if negative then -seconds else seconds } }

/-- The date or time that a text is worth. One that no calendar or clock shows breaks the reading
down. -/
def timeOf (text : String) : Except Fault Timestamp :=
  match dateFields? (withoutLineFeed text.toList) with
  | none => .error .noMember
  | some d => if d.toTimestamp.isValid then .ok d.toTimestamp else .error .badValue

/-- The bytes that a text is worth. -/
def bytesOf (text : String) : Outcome Cause (List UInt8) :=
  let cs := text.toList
  match if cs.all (·.toNat < 128) then Text.ofBase64? cs else none with
  | some bytes => .ok bytes
  | none => refuse .badNode

/-- The value that a text is worth under the tag of a scalar kind, with the mark for a NaN that has
to be computed. -/
def scalarOf (mark : Nat) (tag : Tag) (text : String) : Outcome Cause Scalar :=
  match tag with
  | .null => .ok .null
  | .bool => do return .bool (← boolOf text)
  | .int => do return .int (← intOf text)
  | .float => do return .float (← floatOf mark text)
  | .binary => do return .bytes (← bytesOf text)
  | .timestamp => do return .time (← timeOf text)
  | .str => .ok (.str text)
  | _ => refuse .unknownTag

end SchemaForge.Yaml
