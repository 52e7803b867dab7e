import SchemaForge.Text.Printable

/-!
# Quoted text

The form in which messages show a text: between single quotes, or between double quotes when it
holds a single quote and no double quote. The quote in use, the backslash and the characters that
are not printable are escaped; a printable character stands for itself.
-/

namespace SchemaForge.Text

/-- The lower-case hexadecimal digit of a value below sixteen. -/
def hexDigit (d : Nat) : Char := Char.ofNat (if d < 10 then 48 + d else 87 + d)

/-- The last `width` hexadecimal digits of `n`, in front of `rest`, written from the last digit to
the first. -/
def hexOnto : Nat → Nat → List Char → List Char
  | 0, _, rest => rest
  | width + 1, n, rest => hexOnto width (n / 16) (hexDigit (n % 16) :: rest)

/-- A code point as the shortest of the three escapes by number, with two, four or eight hexadecimal
digits. -/
def numericEscape (n : Nat) : List Char :=
  if n < 0x100 then '\\' :: 'x' :: hexOnto 2 n []
  else if n < 0x10000 then '\\' :: 'u' :: hexOnto 4 n []
  else '\\' :: 'U' :: hexOnto 8 n []

/-- A character as it stands between two `quote` characters: escaped if it is the quote, a backslash
or not printable (`isPrintable`), and as it is otherwise. -/
def quotedChar (quote c : Char) : List Char :=
  if c = quote ∨ c = '\\' then ['\\', c]
  else if c = '\n' then ['\\', 'n']
  else if c = '\r' then ['\\', 'r']
  else if c = '\t' then ['\\', 't']
  else if isPrintable c then [c]
  else numericEscape c.toNat

/-- The quote character for a text: a single quote, unless the text holds one and no double
quote. -/
def quoteFor (cs : List Char) : Char :=
  if cs.contains '\'' && !cs.contains '"' then '"' else '\''

/-- A text between quotes, as messages show it: `quoteFor` gives the quotes, and `quotedChar` what
is between them. -/
def quoted (s : String) : String :=
  let quote := quoteFor s.toList
  String.ofList (quote :: (s.toList.flatMap (quotedChar quote) ++ [quote]))

/-- A byte as it stands between two `quote` characters: ASCII only. -/
def quotedByte (quote : Char) (b : UInt8) : List Char :=
  if b < 128 then quotedChar quote (Char.ofNat b.toNat) else numericEscape b.toNat

/-- Bytes between quotes, with the mark of a byte text in front. -/
def quotedBytes (bytes : List UInt8) : String :=
  let quote := quoteFor (bytes.map fun b => Char.ofNat b.toNat)
  String.ofList ('b' :: quote :: (bytes.flatMap (quotedByte quote) ++ [quote]))

end SchemaForge.Text
