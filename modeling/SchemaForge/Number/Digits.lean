/-!
# Decimal digits of natural numbers

`digits` writes a number, most significant digit first, and `ofDigits` reads digit values back.
Integers are written with a leading minus sign and no plus sign.
-/

namespace SchemaForge.Number

/-- The ASCII digit of a value below ten. -/
def digitChar (d : Nat) : Char := Char.ofNat (48 + d)

/-- The decimal digits of `n` in front of `rest`, found from the last one to the first. -/
def digitsOnto (n : Nat) (rest : List Char) : List Char :=
  if n < 10 then digitChar n :: rest
  else digitsOnto (n / 10) (digitChar (n % 10) :: rest)
termination_by n

/-- The decimal digits of `n`, most significant first, without leading zeros. -/
def digits (n : Nat) : List Char := digitsOnto n []

/-- The number that a list of digit values stands for in base `base`; `digits` is its inverse in
base ten. -/
def ofDigits (base : Nat) (values : List Nat) : Nat :=
  values.foldl (fun n d => base * n + d) 0

/-- The decimal text of an integer. -/
def intText (n : Int) : String :=
  String.ofList (if n < 0 then '-' :: digits n.natAbs else digits n.natAbs)

/-- The decimal text of `n` with zeros in front up to `width` digits. -/
def padded (width n : Nat) : String :=
  let text := digits n
  String.ofList (List.replicate (width - text.length) '0' ++ text)

end SchemaForge.Number
