import SchemaForge.Number.Digits
import SchemaForge.Number.Double

/-!
# Shortest decimal text of a binary64 number

A finite number is written with the fewest significant digits from which it reads back, and of
the decimals with that many digits the nearest one is taken. `shortest` works on the significand
and the exponent alone. It tries 1, 2, … 17 digits: a grid of decimals with so many digits has two
neighbours of the number, and the first grid with a neighbour inside the rounding interval gives
the result.

How the digits are laid out is `layout`'s: where positional notation ends, what an exponent looks
like.
-/

namespace SchemaForge

namespace Number

/-- The decimal `digits * 10 ^ exponent`. -/
structure Decimal where
  /-- The significant digits as one number. -/
  digits : Nat
  /-- The power of ten. -/
  exponent : Int
  deriving DecidableEq

/-- The number of decimal digits of `n`. -/
def digitCount (n : Nat) : Nat := (digits n).length

/-- The decimal without trailing zeros among its digits. -/
def Decimal.strip (fuel : Nat) (d : Decimal) : Decimal :=
  match fuel with
  | 0 => d
  | fuel + 1 =>
    if d.digits ≠ 0 ∧ d.digits % 10 = 0 then strip fuel ⟨d.digits / 10, d.exponent + 1⟩ else d

/-- The power of ten just above `m * 2 ^ q`: the least `p` with `m * 2 ^ q < 10 ^ p`. For a negative
`q` it is told by the digits of `m * 5 ^ -q`. -/
def magnitude (m : Nat) (q : Int) : Int :=
  if 0 ≤ q then digitCount (m * Nat.pow 2 q.toNat)
  else (digitCount (m * Nat.pow 5 (-q).toNat) : Int) + q

/-- The rounding interval of `m * 2 ^ q` in units of `2 ^ (q - 2)`. It reaches half a unit of the
last place to either side, below a power of two (`narrow`) a quarter; its ends belong to it when
`m` is even. -/
structure Interval where
  /-- The lower end. -/
  low : Nat
  /-- The number itself. -/
  mid : Nat
  /-- The upper end. -/
  high : Nat
  /-- Whether the ends round to the number. -/
  closed : Bool

/-- The interval of the reals that round to `m * 2 ^ q`, in the units of `Interval`. -/
def Interval.of (m : Nat) (narrow : Bool) : Interval :=
  ⟨4 * m - (if narrow then 1 else 2), 4 * m, 4 * m + 2, m % 2 == 0⟩

/-- The neighbour of the number on the grid of multiples of `10 ^ k` that reads back, if one does;
the nearer one if both do, and the even one if both are equally near. -/
def Interval.neighbour? (i : Interval) (q k : Int) : Option Nat :=
  -- Everything is scaled by `num / den`, so that only integers are compared.
  let num := Nat.pow 2 (q - 2).toNat * Nat.pow 10 (-k).toNat
  let den := Nat.pow 2 (2 - q).toNat * Nat.pow 10 k.toNat
  let inside (d : Nat) : Bool :=
    if i.closed then i.low * num ≤ d * den && d * den ≤ i.high * num
    else i.low * num < d * den && d * den < i.high * num
  let d := i.mid * num / den
  let below := i.mid * num - d * den
  let above := (d + 1) * den - i.mid * num
  let nearer := if below < above then d else if above < below then d + 1 else d + d % 2
  if inside d && inside (d + 1) then some nearer
  else if inside d then some d
  else if inside (d + 1) then some (d + 1)
  else none

/-- The first hit of `neighbour?` among the grids of `n`, `n + 1`, … significant digits; `p` is the
`magnitude` of the number. -/
def Interval.search (i : Interval) (q p : Int) : Nat → Nat → Decimal
  -- Seventeen digits always hit, so that the search does not come here.
  | 0, n => ⟨i.mid, (n : Int)⟩
  | fuel + 1, n =>
    match i.neighbour? q (p - n) with
    | some d => ⟨d, p - n⟩
    | none => search i q p fuel (n + 1)

/-- The shortest decimal that reads back as `m * 2 ^ q`, the nearest of those. Seventeen digits are
always enough for `Interval.search`. -/
def shortest (m : Nat) (q : Int) (narrow : Bool) : Decimal :=
  ((Interval.of m narrow).search q (magnitude m q) 17 1).strip 20

/-- How a number is laid out. -/
structure Layout where
  /-- The least decimal exponent written positionally. -/
  least : Int
  /-- The decimal exponent from which on the exponent is written out. -/
  limit : Int
  /-- The text of NaN. -/
  nan : String
  /-- The text of the positive infinity. -/
  infinity : String

/-- Positional from a ten-thousandth to below `10 ^ 16`. -/
def plainLayout : Layout := ⟨-4, 16, "nan", "inf"⟩

/-- As `plainLayout`, with the names that JSON readers accept. -/
def jsonLayout : Layout := ⟨-4, 16, "NaN", "Infinity"⟩

/-- The digits of a decimal in positional notation, with at least one digit on each side of the
point. `point` is the number of digits before the point, and zero or less if there is none. -/
def positional (ds : List Char) (point : Int) : List Char :=
  if point ≤ 0 then '0' :: '.' :: (List.replicate (-point).toNat '0' ++ ds)
  else
    let n := point.toNat
    if ds.length ≤ n then ds ++ List.replicate (n - ds.length) '0' ++ ['.', '0']
    else ds.take n ++ '.' :: ds.drop n

/-- The digits of a decimal with one digit before the point and the exponent `e`, which has a
sign and at least two digits. -/
def scientific (ds : List Char) (e : Int) : List Char :=
  let head := match ds with
    | [] => []
    | [d] => [d]
    | d :: rest => d :: '.' :: rest
  head ++ 'e' :: (if e < 0 then '-' else '+') :: (padded 2 e.natAbs).toList

/-- The text of a decimal: `positional` between the exponents that the layout names, and
`scientific` beyond. -/
def Decimal.text (l : Layout) (d : Decimal) : List Char :=
  let ds := Number.digits d.digits
  let point : Int := (ds.length : Int) + d.exponent
  let e := point - 1
  if l.least ≤ e ∧ e < l.limit then positional ds point else scientific ds e

end Number

namespace Double

/-- The shortest decimal that reads back as a finite number without its sign. Zero is written with
one digit. -/
def decimal (biased : Fin 2047) (fraction : Fin 4503599627370496) : Number.Decimal :=
  let m := significand biased fraction
  if m = 0 then ⟨0, 0⟩
  else Number.shortest m (exponent biased) (fraction.val == 0 && 1 < biased.val)

/-- The text of a number, from which `Number.readDouble?` reads it back if it is finite. -/
def text (l : Number.Layout) : Double → String
  | .nan _ => l.nan
  | .infinite negative => if negative then "-" ++ l.infinity else l.infinity
  | .finite negative b f =>
    String.ofList ((if negative then ['-'] else []) ++ (decimal b f).text l)

end Double

end SchemaForge
