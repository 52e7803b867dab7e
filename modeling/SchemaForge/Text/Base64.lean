/-!
# Base 64

The bytes that a text in base 64 stands for. Characters outside the alphabet are passed over. The
text ends where padding completes a group of four; a group that is left open has no meaning.
-/

namespace SchemaForge.Text

/-- The six bits of a character of the alphabet. -/
def sextet? (c : Char) : Option Nat :=
  if 'A' ≤ c ∧ c ≤ 'Z' then some (c.toNat - 65)
  else if 'a' ≤ c ∧ c ≤ 'z' then some (c.toNat - 71)
  else if '0' ≤ c ∧ c ≤ '9' then some (c.toNat + 4)
  else if c = '+' then some 62
  else if c = '/' then some 63
  else none

/-- The bytes of the rest of a text. Of the group at hand `opened` sextets were read, `bits` holds
those of their bits that no byte has yet, and `pads` padding characters came behind them. -/
def sextetBytes? (opened bits pads : Nat) : List Char → Option (List UInt8)
  | [] => if opened = 0 then some [] else none
  | c :: rest =>
    if c = '=' then
      if 2 ≤ opened ∧ 4 ≤ opened + pads + 1 then some []
      else sextetBytes? opened bits (if 2 ≤ opened then pads + 1 else pads) rest
    else match sextet? c with
      | none => sextetBytes? opened bits pads rest
      | some d =>
        if opened = 0 then sextetBytes? 1 d 0 rest
        else if opened = 1 then
          (UInt8.ofNat (bits * 4 + d / 16) :: ·) <$> sextetBytes? 2 (d % 16) 0 rest
        else if opened = 2 then
          (UInt8.ofNat (bits * 16 + d / 4) :: ·) <$> sextetBytes? 3 (d % 4) 0 rest
        else (UInt8.ofNat (bits * 64 + d) :: ·) <$> sextetBytes? 0 0 0 rest

/-- The bytes that a text in base 64 stands for, read from its start by `sextetBytes?`. -/
def ofBase64? (text : List Char) : Option (List UInt8) := sextetBytes? 0 0 0 text

end SchemaForge.Text
