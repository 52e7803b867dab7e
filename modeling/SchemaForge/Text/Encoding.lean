import SchemaForge.Text.Disorder
import SchemaForge.Text.Ebcdic

/-!
# Encodings

The text that bytes stand for when they do not say in which encoding. A text that begins with two
ASCII characters tells by the zeros among its first four bytes: in UTF-32 a character takes four
bytes and in UTF-16 two or four, with the high or the low byte first, while UTF-8 has no zeros
there. Where the zeros tell nothing, or where the bytes are no text in the encoding that they tell,
the likeliest of the legible texts is taken, and EBCDIC is thought of too. UTF-8 is preferred if it
gives an orderly text, and also if no text is legible.
-/

namespace SchemaForge.Text

/-- The first half of a pair of UTF-16 units. -/
def isHighSurrogate (n : Nat) : Bool := 0xd800 ≤ n && n ≤ 0xdbff

/-- The second half of a pair of UTF-16 units. -/
def isLowSurrogate (n : Nat) : Bool := 0xdc00 ≤ n && n ≤ 0xdfff

/-- The code point of a pair of UTF-16 units. -/
def joinSurrogates (high low : Nat) : Nat := 0x10000 + (high - 0xd800) * 0x400 + (low - 0xdc00)

/-- How bytes stand for characters. -/
inductive Encoding where
  /-- One to four bytes for a character. -/
  | utf8
  /-- One byte for a character, in the order of mainframes. -/
  | ebcdic
  /-- The same with Hebrew letters. -/
  | hebrewEbcdic
  /-- One or two units of two bytes for a character. -/
  | utf16 (highFirst : Bool)
  /-- One unit of four bytes for a character. -/
  | utf32 (highFirst : Bool)
  deriving DecidableEq, Repr

/-- All encodings, the first one preferred. -/
def Encoding.all : List Encoding :=
  [.utf8, .ebcdic, .hebrewEbcdic, .utf16 true, .utf16 false, .utf32 true, .utf32 false]

/-- The encoding of a text that begins with a byte order mark in UTF-8 or with two ASCII characters,
told by the zeros among its first four bytes. -/
def Encoding.ofStart? : List UInt8 → Option Encoding
  | 0xef :: 0xbb :: 0xbf :: _ => some .utf8
  | a :: b :: c :: d :: _ =>
    match a == 0, b == 0, c == 0, d == 0 with
    | false, false, false, false => some .utf8
    | true, false, true, false => some (.utf16 true)
    | false, true, false, true => some (.utf16 false)
    | true, true, true, false => some (.utf32 true)
    | false, true, true, true => some (.utf32 false)
    | _, _, _, _ => none
  | _ => none

/-- The number that the bytes of a unit make. -/
def unitOf (highFirst : Bool) (bytes : List UInt8) : Nat :=
  (if highFirst then bytes else bytes.reverse).foldl (fun n b => 256 * n + b.toNat) 0

/-- The units of two bytes each, by `unitOf`; none if a byte is left over. -/
def units16? (highFirst : Bool) : List UInt8 → Option (List Nat)
  | [] => some []
  | a :: b :: rest => (units16? highFirst rest).map (unitOf highFirst [a, b] :: ·)
  | _ => none

/-- The units of four bytes each, by `unitOf`; none if bytes are left over. -/
def units32? (highFirst : Bool) : List UInt8 → Option (List Nat)
  | [] => some []
  | a :: b :: c :: d :: rest => (units32? highFirst rest).map (unitOf highFirst [a, b, c, d] :: ·)
  | _ => none

/-- The characters of code points; none if one of them is a surrogate or too large. -/
def ofCodePoints? : List Nat → Option (List Char)
  | [] => some []
  | n :: rest => if n.isValidChar then (ofCodePoints? rest).map (Char.ofNat n :: ·) else none

/-- The characters of UTF-16 units, with pairs of surrogates joined; none if a surrogate stands
alone. -/
def ofUnits16? : List Nat → Option (List Char)
  | [] => some []
  | [n] => ofCodePoints? [n]
  | n :: m :: rest =>
    if isHighSurrogate n && isLowSurrogate m then
      (ofUnits16? rest).map (Char.ofNat (joinSurrogates n m) :: ·)
    else if n.isValidChar then (ofUnits16? (m :: rest)).map (Char.ofNat n :: ·)
    else none

/-- A text without a byte order mark in front. -/
def withoutMark : List Char → List Char
  | '\ufeff' :: rest => rest
  | cs => cs

/-- The characters of bytes in UTF-8. A byte order mark in front is no part of the text. -/
def ofUTF8? (bytes : List UInt8) : Option (List Char) :=
  (String.fromUTF8? ⟨bytes.toArray⟩).map fun text => withoutMark text.toList

/-- The characters of bytes in an encoding, or none where the bytes are no text in it. -/
def Encoding.read? (bytes : List UInt8) : Encoding → Option (List Char)
  | .utf8 => ofUTF8? bytes
  | .ebcdic => some (bytes.map ofEbcdic)
  | .hebrewEbcdic => bytes.mapM ofHebrewEbcdic?
  | .utf16 highFirst => units16? highFirst bytes >>= ofUnits16?
  | .utf32 highFirst => units32? highFirst bytes >>= ofCodePoints?

/-- Whether a legible text is so orderly that no other reading of its bytes is looked at: fewer than
one character in eighty cannot be printed, as `disorder` counts them. -/
def isOrderly (text : List Char) : Bool :=
  let (m, k) := disorder text
  isLegible text && 80 * m < k

/-- The characters that bytes of an unknown encoding most likely stand for: those of UTF-8 if they
are orderly, and else the `likeliest?` of the legible readings. -/
def guess (bytes : List UInt8) : List Char :=
  match ofUTF8? bytes with
  | some text =>
    if isOrderly text then text
    else (likeliest? ((Encoding.all.filterMap (·.read? bytes)).filter isLegible)).getD text
  | none => bytes.map fun b => Char.ofNat b.toNat

/-- The characters that bytes stand for, in the encoding that `Encoding.ofStart?` tells, and
otherwise by `guess`. -/
def decode (bytes : List UInt8) : List Char :=
  match Encoding.ofStart? bytes >>= (·.read? bytes) with
  | some text => text
  | none => guess bytes

end SchemaForge.Text
