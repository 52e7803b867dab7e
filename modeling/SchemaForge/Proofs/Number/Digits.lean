import Mathlib.Data.Nat.Digits.Lemmas
import Mathlib.Tactic.Ring
import SchemaForge.Number.Digits
import SchemaForge.Text.Digit

/-!
# Decimal digits read back

`digits n` writes the values `digitValues n`, most significant first, and `ofDigits` gives `n` back
from them (`ofDigits_digitValues`). The number of digits is what it should be:
`10 ^ (length - 1) ≤ n < 10 ^ length` for positive `n`.
-/

namespace SchemaForge.Number

/-- The values of the decimal digits of `n`, most significant first, with one zero for zero
itself. -/
def digitValues (n : ℕ) : List ℕ := if n = 0 then [0] else (Nat.digits 10 n).reverse

/-- The function `digitsOnto n rest` writes `digits n` and then `rest`, so that the accumulator of
the loop can be left out of all that follows. -/
theorem digitsOnto_eq_append (n : ℕ) (rest : List Char) : digitsOnto n rest = digits n ++ rest := by
  induction n using Nat.strong_induction_on generalizing rest with
  | _ n ih =>
    unfold digits
    rcases Nat.lt_or_ge n 10 with h | h
    · rw [digitsOnto, if_pos h, digitsOnto, if_pos h, List.singleton_append]
    · have hstep : ∀ rest, digitsOnto n rest = digitsOnto (n / 10) (digitChar (n % 10) :: rest) :=
        fun rest => by rw [digitsOnto, if_neg (by omega)]
      rw [hstep, hstep, ih (n / 10) (by omega), ih (n / 10) (by omega) [_], List.append_assoc,
        List.singleton_append]

/-- A number below ten is written by one digit, its own. -/
theorem digits_of_lt {n : ℕ} (h : n < 10) : digits n = [digitChar n] := by
  rw [digits, digitsOnto, if_pos h]

/-- From ten on, the digits of a number are those of its tenth, and then the last one. -/
theorem digits_of_ge {n : ℕ} (h : 10 ≤ n) : digits n = digits (n / 10) ++ [digitChar (n % 10)] := by
  rw [digits, digitsOnto, if_neg (by omega), digitsOnto_eq_append]

/-- The function `digits` writes the characters of `digitValues`, one for each. -/
theorem digits_eq_map (n : ℕ) : digits n = (digitValues n).map digitChar := by
  -- The last digit is split off, and what is left is a tenth of the number.
  induction n using Nat.strong_induction_on with
  | _ n ih =>
    rcases Nat.lt_or_ge n 10 with h | h
    · rw [digits_of_lt h, digitValues]
      split_ifs with h0
      · rw [h0]; rfl
      · rw [Nat.digits_of_lt 10 n h0 h]; rfl
    · have h0 : n / 10 ≠ 0 := by omega
      rw [digits_of_ge h, ih (n / 10) (by omega), digitValues, digitValues, if_neg h0,
        if_neg (by omega), Nat.digits_def' (by omega : 1 < 10) (by omega : 0 < n),
        List.reverse_cons, List.map_append]
      rfl

/-- Every number has one digit at least, zero included. -/
theorem digitValues_ne_nil (n : ℕ) : digitValues n ≠ [] := by
  unfold digitValues
  split_ifs with h
  · simp
  · rw [ne_eq, List.reverse_eq_nil_iff]
    exact Nat.digits_ne_nil_iff_ne_zero.mpr h

/-- Every one of the `digitValues` of a number is below ten. -/
theorem digitValues_lt {n d : ℕ} (h : d ∈ digitValues n) : d < 10 := by
  unfold digitValues at h
  split_ifs at h with h0
  · rw [List.mem_singleton] at h
    omega
  · exact Nat.digits_lt_base (by omega) (List.mem_reverse.mp h)

/-- The function `ofDigits` evaluates digits as `Nat.ofDigits` does, which has the least significant
one first. -/
theorem ofDigits_eq (values : List ℕ) : ofDigits 10 values = Nat.ofDigits 10 values.reverse := by
  induction values using List.reverseRecOn with
  | nil => rfl
  | append_singleton values d ih =>
    have hstep : ofDigits 10 (values ++ [d]) = 10 * ofDigits 10 values + d := by
      simp [ofDigits, List.foldl_append]
    rw [hstep, ih, List.reverse_append, List.reverse_singleton, List.singleton_append,
      Nat.ofDigits_cons]
    ring

/-- The function `ofDigits` gives back the number from its `digitValues`. -/
theorem ofDigits_digitValues (n : ℕ) : ofDigits 10 (digitValues n) = n := by
  unfold digitValues
  split_ifs with h
  · rw [h]; rfl
  · rw [ofDigits_eq, List.reverse_reverse, Nat.ofDigits_digits]

/-- Digits behind others shift those to the left, by as many places as there are digits behind. -/
theorem ofDigits_append (xs ys : List ℕ) :
    ofDigits 10 (xs ++ ys) = ofDigits 10 xs * 10 ^ ys.length + ofDigits 10 ys := by
  rw [ofDigits_eq, ofDigits_eq, ofDigits_eq, List.reverse_append, Nat.ofDigits_append,
    List.length_reverse]
  ring

/-- Any number of zeros has the value zero. -/
theorem ofDigits_replicate_zero (k : ℕ) : ofDigits 10 (List.replicate k 0) = 0 := by
  rw [ofDigits_eq, List.reverse_replicate, Nat.ofDigits_replicate_zero]

/-- As many digits are written as the number has `digitValues`. -/
theorem digitCount_eq (n : ℕ) : (digits n).length = (digitValues n).length := by
  rw [digits_eq_map, List.length_map]

/-- A positive number is no less than the power of ten that is one below its number of digits. -/
theorem pow_length_digits_le {n : ℕ} (h : n ≠ 0) : 10 ^ (digits n).length ≤ 10 * n := by
  rw [digitCount_eq, digitValues, if_neg h, List.length_reverse]
  exact Nat.base_pow_length_digits_le 10 n (by omega) h

/-- The function `Text.digitValue?` reads the digit of a value below ten as this value. -/
theorem digitValue?_digitChar {d : ℕ} (h : d < 10) : Text.digitValue? (digitChar d) = some d := by
  interval_cases d <;> rfl

end SchemaForge.Number
