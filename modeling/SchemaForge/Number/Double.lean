/-!
# Binary64 numbers

A `Double` is a binary64 number in its three fields, so that every value of the type is a
different number and equality of values is identity of numbers. All arithmetic is exact integer
arithmetic followed by one rounding, `ofRatio`: to the nearest representable number, and to the
even one of two that are equally near.

A NaN is no number and equals none, not even itself; but it may be told from other NaNs, as one key
of a mapping from another. So it carries a mark, and NaNs of one mark are one and the same.
-/

namespace SchemaForge

/-- A binary64 number: not a number, an infinity, or a sign with a biased exponent and a fraction.
Every number has one form only, so `=` is identity of numbers, and `Double.equals` is equality of
worth. -/
inductive Double where
  /-- The result of an operation that has none. -/
  | nan (mark : Nat)
  /-- Beyond every finite number. -/
  | infinite (negative : Bool)
  /-- Sign, biased exponent and the fraction below the leading bit. -/
  | finite (negative : Bool) (biased : Fin 2047) (fraction : Fin 4503599627370496)
  deriving DecidableEq, Inhabited

namespace Double

/-- Zero of a sign. -/
def zero (negative : Bool) : Double := .finite negative 0 0

/-- The integer significand of a finite number: the leading bit counts unless the biased exponent is
zero. The number is `significand` times two to the power of `exponent`. -/
def significand (biased : Fin 2047) (fraction : Fin 4503599627370496) : Nat :=
  if biased.val = 0 then fraction.val else fraction.val + Nat.pow 2 52

/-- The exponent of two that the `significand` is scaled by. -/
def exponent (biased : Fin 2047) : Int :=
  if biased.val = 0 then -1074 else (biased.val : Int) - 1075

/-- The number `m * 2 ^ q`, for `m` below `2 ^ 53` and `q` at least -1074, where `m` reaches `2 ^
52` unless `q` is -1074. Beyond the largest exponent it is an infinity. -/
def ofScaled (negative : Bool) (m : Nat) (q : Int) : Double :=
  if m < Nat.pow 2 52 then .finite negative 0 (Fin.ofNat _ m)
  else
    let biased := (q + 1075).toNat
    if biased < 2047 then .finite negative (Fin.ofNat _ biased) (Fin.ofNat _ (m - Nat.pow 2 52))
    else .infinite negative

/-- The quotient `n / d` rounded to the nearest integer, a half to the even one. -/
def divToNearest (n d : Nat) : Nat :=
  let q := n / d
  let r := n % d
  if 2 * r < d then q else if d < 2 * r then q + 1 else q + q % 2

/-- The least exponent at which the quotient `n / d` has a significand below `2 ^ 53`, and no
exponent below -1074. It comes from the two lengths in bits, which are off by one at most. -/
def scaleOf (n d : Nat) : Int :=
  let k : Int := (n.log2 : Int) - (d.log2 : Int)
  let below := if 0 ≤ k then n < d * Nat.pow 2 k.toNat else n * Nat.pow 2 (-k).toNat < d
  max (-1074) (if below then k - 53 else k - 52)

/-- The number nearest to `n / d`, rounded once by `divToNearest` at the exponent that `scaleOf`
gives. -/
def ofRatio (negative : Bool) (n d : Nat) : Double :=
  if n = 0 ∨ d = 0 then zero negative
  else
    let e := scaleOf n d
    let m := if 0 ≤ e then divToNearest n (d * Nat.pow 2 e.toNat)
      else divToNearest (n * Nat.pow 2 (-e).toNat) d
    -- Rounding up may reach the next power of two, which has the significand of its own exponent.
    if m = Nat.pow 2 53 then ofScaled negative (Nat.pow 2 52) (e + 1) else ofScaled negative m e

/-- The number nearest to `n * 10 ^ x`. The exponents at which the result is certainly an infinity
or zero are decided without forming the power; all others go through `ofRatio`. -/
def ofDecimal (negative : Bool) (n : Nat) (x : Int) : Double :=
  let top : Int := x + (n.log2 : Int) / 3
  if n = 0 then zero negative
  else if 400 < x then .infinite negative
  else if top < -400 then zero negative
  else if 0 ≤ x then ofRatio negative (n * Nat.pow 10 x.toNat) 1
  else ofRatio negative n (Nat.pow 10 (-x).toNat)

/-- The number nearest to an integer. -/
def ofInt (n : Int) : Double := ofRatio (n < 0) n.natAbs 1

/-- Neither an infinity nor NaN. -/
def isFinite : Double → Bool
  | .finite .. => true
  | _ => false

/-- A zero of either sign. -/
def isZero : Double → Bool
  | .finite _ b f => significand b f == 0
  | _ => false

/-- Numerical equality: NaN equals nothing and the two zeros are equal. `Scalar.agrees` compares
keys by it. -/
def equals : Double → Double → Bool
  | .nan _, _ => false
  | _, .nan _ => false
  | x, y => x == y || (isZero x && isZero y)

/-- Numerical equality with an integer. -/
def equalsInt (x : Double) (n : Int) : Bool :=
  match x with
  | .finite negative b f =>
    let m := significand b f
    let q := exponent b
    let same := if 0 ≤ q then m * Nat.pow 2 q.toNat == n.natAbs
      else m == n.natAbs * Nat.pow 2 (-q).toNat
    -- The magnitudes are equal; a zero has no sign here.
    same && (m == 0 || negative == decide (n < 0))
  | _ => false

/-- The integer part of a finite number, toward zero. -/
def truncate? : Double → Option Int
  | .finite negative b f =>
    let m := significand b f
    let q := exponent b
    let whole := if 0 ≤ q then m * Nat.pow 2 q.toNat else m / Nat.pow 2 (-q).toNat
    some (if negative then -(whole : Int) else whole)
  | _ => none

/-- The number of the opposite sign. -/
def negate : Double → Double
  | .nan mark => .nan mark
  | .infinite n => .infinite !n
  | .finite n b f => .finite (!n) b f

/-- A finite number as a signed numerator over a power of two, exactly. -/
def ratio (negative : Bool) (b : Fin 2047) (f : Fin 4503599627370496) : Int × Nat :=
  let m : Int := significand b f
  let q := exponent b
  let n := if 0 ≤ q then m * Nat.pow 2 q.toNat else m
  (if negative then -n else n, if 0 ≤ q then 1 else Nat.pow 2 (-q).toNat)

/-- The number with a mark, if it is a NaN. -/
def marked (mark : Nat) : Double → Double
  | .nan _ => .nan mark
  | x => x

/-- Whether the sign of a number is negative. -/
def isNegative : Double → Bool
  | .nan _ => false
  | .infinite negative => negative
  | .finite negative _ _ => negative

/-- The number nearest to the product of two numbers, formed exactly and rounded by `ofRatio`. An
infinity times zero is NaN. -/
def times : Double → Double → Double
  | .finite n b f, .finite n' b' f' =>
    let (x, d) := ratio n b f
    let (y, e) := ratio n' b' f'
    ofRatio (n != n') (x * y).natAbs (d * e)
  | .nan mark, _ => .nan mark
  | _, .nan mark => .nan mark
  | x, y => if x.isZero || y.isZero then .nan 0 else .infinite (x.isNegative != y.isNegative)

/-- The number nearest to the sum of two numbers, formed exactly and rounded by `ofRatio`.
Infinities of both signs sum to NaN. -/
def plus : Double → Double → Double
  | .finite n b f, .finite n' b' f' =>
    let (x, d) := ratio n b f
    let (y, e) := ratio n' b' f'
    let sum := x * e + y * d
    ofRatio (sum < 0 || (sum == 0 && n && n')) sum.natAbs (d * e)
  | .nan mark, _ => .nan mark
  | _, .nan mark => .nan mark
  | .infinite n, .infinite n' => if n = n' then .infinite n else .nan 0
  | .infinite n, .finite .. => .infinite n
  | .finite .., .infinite n => .infinite n

end Double

end SchemaForge
