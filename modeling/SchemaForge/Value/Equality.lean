import SchemaForge.Value.Basic

/-!
# Equality of values

Two values are the same when they are of one shape and their parts are the same: numbers by worth,
mappings and sets without regard to order. A NaN is the same as itself.
-/

namespace SchemaForge.Value

mutual

/-- Whether two values are the same. Scalars are compared by `Scalar.agrees`, lists item by item,
and mappings and sets without regard to order. -/
def same : Value → Value → Bool
  | .scalar a, .scalar b => a.agrees b
  | .list xs, .list ys => sameAll xs ys
  | .tuple xs, .tuple ys => sameAll xs ys
  | .mapping xs, .mapping ys => xs.length == ys.length && sameEntries xs ys
  | .set xs, .set ys => xs.length == ys.length && xs.all fun x => ys.any x.agrees
  | .function f xs, .function g ys => f == g && sameAll xs ys
  | .call p xs, .call q ys => p == q && sameAll xs ys
  | .knot m xs, .knot n ys => m == n && sameAll xs ys
  | .link m _, .link n _ => m == n
  | _, _ => false

/-- Whether two lists of values are the same item by item; lists of different lengths are not. -/
def sameAll : List Value → List Value → Bool
  | [], [] => true
  | x :: xs, y :: ys => same x y && sameAll xs ys
  | _, _ => false

/-- Whether every entry has the same value under its key in `others`. With as many entries on both
sides this is equality of mappings. -/
def sameEntries : List (Scalar × Value) → List (Scalar × Value) → Bool
  | [], _ => true
  | (k, v) :: rest, others =>
    (match Entries.get? k others with
      | some w => same v w
      | none => false) && sameEntries rest others

end

end SchemaForge.Value
