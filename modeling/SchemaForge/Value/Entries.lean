/-!
# Entries

The entries of a mapping: pairs of a key and a value in the order in which the keys first came.
Putting a value under a key that is already there keeps the key and its place and replaces the
value; a new key goes to the end.
-/

namespace SchemaForge.Entries

variable {κ : Type u} {α : Type v} [BEq κ]

/-- The value under a key. -/
def get? (key : κ) : List (κ × α) → Option α
  | [] => none
  | (k, a) :: rest => if k == key then some a else get? key rest

/-- Whether a key has a value. -/
def has (key : κ) (entries : List (κ × α)) : Bool := (get? key entries).isSome

/-- The entries with `value` under `key`. -/
def put (key : κ) (value : α) : List (κ × α) → List (κ × α)
  | [] => [(key, value)]
  | (k, a) :: rest => if k == key then (k, value) :: rest else (k, a) :: put key value rest

/-- The entries without the one under `key`. -/
def remove (key : κ) : List (κ × α) → List (κ × α)
  | [] => []
  | (k, a) :: rest => if k == key then rest else (k, a) :: remove key rest

/-- The entries with all of `pairs` put in, in order. -/
def putAll (entries pairs : List (κ × α)) : List (κ × α) :=
  pairs.foldl (fun entries pair => put pair.1 pair.2 entries) entries

/-- The entries that a list of pairs makes: the last value of each key at its first place. -/
def ofPairs (pairs : List (κ × α)) : List (κ × α) := putAll [] pairs

/-- The keys in order. -/
def keys (entries : List (κ × α)) : List κ := entries.map (·.1)

end SchemaForge.Entries
