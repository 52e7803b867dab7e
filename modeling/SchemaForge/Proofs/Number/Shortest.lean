import SchemaForge.Proofs.Number.Digits
import SchemaForge.Proofs.Number.Rounding

/-!
# The shortest decimal reads back

`Double.decimal` is in the rounding interval of its number (`decimal_roundsTo`), so
`Double.ofDecimal` gives the number back from it.

A grid hit is in the interval by the test that found it (`neighbour?_contains`), and the last grid
that is tried has one: its step is below the width of the interval (`neighbour?_isSome`), since 17
digits tell any two numbers of 53 bits apart.
-/

namespace SchemaForge

open Number Double

namespace Number

/-- A power with an integer as exponent, split into its parts above and below zero, as `neighbour?`
computes with it. -/
theorem pow_toNat {a : ℚ} (ha : a ≠ 0) (z : ℤ) : a ^ z.toNat = a ^ z * a ^ (-z).toNat := by
  rcases le_total 0 z with h | h
  · obtain ⟨j, rfl⟩ := Int.eq_ofNat_of_zero_le h
    rw [Int.toNat_natCast, show (-(j : ℤ)).toNat = 0 by omega, pow_zero, mul_one, zpow_natCast]
  · obtain ⟨j, rfl⟩ : ∃ j : ℕ, z = -(j : ℤ) := ⟨(-z).toNat, by omega⟩
    rw [neg_neg, Int.toNat_natCast, show (-(j : ℤ)).toNat = 0 by omega, pow_zero, zpow_neg,
      zpow_natCast, inv_mul_cancel₀ (pow_ne_zero _ ha)]

/-- A number of interval units against a point of the grid of multiples of `10 ^ k`: the integers
that `neighbour?` compares say the same as the rationals that they stand for. -/
theorem units_le_iff (a d : ℕ) (q k : ℤ) :
    (a * (Nat.pow 2 (q - 2).toNat * Nat.pow 10 (-k).toNat)
        ≤ d * (Nat.pow 2 (2 - q).toNat * Nat.pow 10 k.toNat) ↔
      (a : ℚ) * 2 ^ (q - 2) ≤ d * 10 ^ k) ∧
    (d * (Nat.pow 2 (2 - q).toNat * Nat.pow 10 k.toNat)
        ≤ a * (Nat.pow 2 (q - 2).toNat * Nat.pow 10 (-k).toNat) ↔
      (d : ℚ) * 10 ^ k ≤ a * 2 ^ (q - 2)) := by
  have h2 := pow_toNat (two_ne_zero : (2 : ℚ) ≠ 0) (q - 2)
  have h10 := pow_toNat (by norm_num : (10 : ℚ) ≠ 0) k
  rw [show -(q - 2) = 2 - q by ring] at h2
  have hscale : (0 : ℚ) < 2 ^ (2 - q).toNat * 10 ^ (-k).toNat := by positivity
  -- Both sides are scaled by the same powers to get rid of negative exponents.
  have ha : ((a * (Nat.pow 2 (q - 2).toNat * Nat.pow 10 (-k).toNat) : ℕ) : ℚ)
      = a * 2 ^ (q - 2) * (2 ^ (2 - q).toNat * 10 ^ (-k).toNat) := by
    push_cast [Nat.pow_eq]
    rw [h2]
    ring
  have hd : ((d * (Nat.pow 2 (2 - q).toNat * Nat.pow 10 k.toNat) : ℕ) : ℚ)
      = d * 10 ^ k * (2 ^ (2 - q).toNat * 10 ^ (-k).toNat) := by
    push_cast [Nat.pow_eq]
    rw [h10]
    ring
  constructor
  · rw [← Nat.cast_le (α := ℚ), ha, hd, mul_le_mul_iff_of_pos_right hscale]
  · rw [← Nat.cast_le (α := ℚ), ha, hd, mul_le_mul_iff_of_pos_right hscale]

/-- The test by which `neighbour?` decides whether the point `d * 10 ^ k` of a grid reads back. -/
def Interval.isHit (i : Interval) (q k : ℤ) (d : ℕ) : Bool :=
  let num := Nat.pow 2 (q - 2).toNat * Nat.pow 10 (-k).toNat
  let den := Nat.pow 2 (2 - q).toNat * Nat.pow 10 k.toNat
  if i.closed then i.low * num ≤ d * den && d * den ≤ i.high * num
  else i.low * num < d * den && d * den < i.high * num

/-- The test `isHit` holds exactly if the point is in the rounding interval. -/
theorem Interval.isHit_iff (i : Interval) (q k : ℤ) (d : ℕ) :
    i.isHit q k d = true ↔ i.Contains q (d * 10 ^ k) := by
  have hlow := units_le_iff i.low d q k
  have hhigh := units_le_iff i.high d q k
  unfold Interval.isHit Interval.Contains
  dsimp only
  split_ifs with hc
  · rw [Bool.and_eq_true, decide_eq_true_eq, decide_eq_true_eq, hlow.1, hhigh.2]
  · rw [Bool.and_eq_true, decide_eq_true_eq, decide_eq_true_eq, ← not_le, ← not_le, ← not_le,
      ← not_le, hlow.2, hhigh.1]

/-- The greatest point of the grid of multiples of `10 ^ k` that is not above the number. -/
def Interval.floor (i : Interval) (q k : ℤ) : ℕ :=
  i.mid * (Nat.pow 2 (q - 2).toNat * Nat.pow 10 (-k).toNat)
    / (Nat.pow 2 (2 - q).toNat * Nat.pow 10 k.toNat)

/-- The number is between two neighbours on the grid: `floor`, and the next point. -/
theorem Interval.floor_spec (i : Interval) (q k : ℤ) :
    (i.floor q k : ℚ) * 10 ^ k ≤ i.mid * 2 ^ (q - 2) ∧
      (i.mid : ℚ) * 2 ^ (q - 2) < ((i.floor q k + 1 : ℕ) : ℚ) * 10 ^ k := by
  have hden : 0 < Nat.pow 2 (2 - q).toNat * Nat.pow 10 k.toNat :=
    Nat.mul_pos (Nat.pow_pos (by omega)) (Nat.pow_pos (by omega))
  constructor
  · rw [← (units_le_iff i.mid (i.floor q k) q k).2]
    exact Nat.div_mul_le_self _ _
  · rw [← not_le, ← (units_le_iff i.mid (i.floor q k + 1) q k).2, not_le]
    exact Nat.lt_mul_of_div_lt (Nat.lt_succ_self _) hden

/-- What `neighbour?` finds is a neighbour of the number that reads back. If it finds nothing, then
neither neighbour does. -/
theorem Interval.neighbour?_cases (i : Interval) (q k : ℤ) :
    (∃ d, i.neighbour? q k = some d ∧ i.isHit q k d = true) ∨
      (i.neighbour? q k = none ∧ i.isHit q k (i.floor q k) = false ∧
        i.isHit q k (i.floor q k + 1) = false) := by
  -- How the two neighbours are weighed against each other does not matter.
  obtain ⟨below, above, heq⟩ : ∃ below above : ℕ, i.neighbour? q k =
      if i.isHit q k (i.floor q k) && i.isHit q k (i.floor q k + 1) then
        some (if below < above then i.floor q k else if above < below then i.floor q k + 1
          else i.floor q k + i.floor q k % 2)
      else if i.isHit q k (i.floor q k) then some (i.floor q k)
      else if i.isHit q k (i.floor q k + 1) then some (i.floor q k + 1) else none :=
    ⟨_, _, rfl⟩
  rw [heq]
  cases h0 : i.isHit q k (i.floor q k) <;> cases h1 : i.isHit q k (i.floor q k + 1)
  · exact Or.inr ⟨rfl, rfl, rfl⟩
  · exact Or.inl ⟨_, rfl, h1⟩
  · exact Or.inl ⟨_, rfl, h0⟩
  · refine Or.inl ⟨_, rfl, ?_⟩
    split_ifs
    · exact h0
    · exact h1
    · rcases Nat.mod_two_eq_zero_or_one (i.floor q k) with h | h <;> rw [h]
      · exact h0
      · exact h1

/-- A grid whose step is below the width of an interval has a neighbour of the number in it: if
neither were, the step would span the interval. -/
theorem Interval.neighbour?_of_step {i : Interval} {q k : ℤ} (hl : i.low < i.mid)
    (hh : i.mid < i.high) (hstep : (10 : ℚ) ^ k < ((i.high : ℚ) - i.low) * 2 ^ (q - 2)) :
    ∃ d, i.neighbour? q k = some d ∧ i.Contains q (d * 10 ^ k) := by
  rcases i.neighbour?_cases q k with ⟨d, hd, hit⟩ | ⟨-, h0, h1⟩
  · exact ⟨d, hd, (i.isHit_iff q k d).mp hit⟩
  · -- Neither neighbour is in the interval, so the step is as wide as the interval.
    exfalso
    obtain ⟨hfloor, hceil⟩ := i.floor_spec q k
    have hu : (0 : ℚ) < 2 ^ (q - 2) := by positivity
    have hl' : (i.low : ℚ) * 2 ^ (q - 2) < i.mid * 2 ^ (q - 2) :=
      mul_lt_mul_of_pos_right (by exact_mod_cast hl) hu
    have hh' : (i.mid : ℚ) * 2 ^ (q - 2) < i.high * 2 ^ (q - 2) :=
      mul_lt_mul_of_pos_right (by exact_mod_cast hh) hu
    have hn0 : ¬i.Contains q (i.floor q k * 10 ^ k) := by rw [← i.isHit_iff, h0]; decide
    have hn1 : ¬i.Contains q ((i.floor q k + 1 : ℕ) * 10 ^ k) := by rw [← i.isHit_iff, h1]; decide
    -- A point of the grid outside the interval is below its lower end or above its upper end.
    have hlow : (i.floor q k : ℚ) * 10 ^ k ≤ i.low * 2 ^ (q - 2) := by
      by_contra hlt
      apply hn0
      unfold Interval.Contains
      split_ifs
      · exact ⟨by linarith, by linarith⟩
      · exact ⟨by linarith, by linarith⟩
    have hhigh : (i.high : ℚ) * 2 ^ (q - 2) ≤ (i.floor q k + 1 : ℕ) * 10 ^ k := by
      by_contra hlt
      apply hn1
      unfold Interval.Contains
      split_ifs
      · exact ⟨by linarith, by linarith⟩
      · exact ⟨by linarith, by linarith⟩
    push_cast at hhigh
    linarith

/-- The function `search` finds a point of the interval if one of the grids that its fuel reaches
has a neighbour of the number in it. -/
theorem Interval.search_contains {i : Interval} {q p : ℤ} :
    ∀ {fuel n j : ℕ}, n ≤ j → j < n + fuel → (∃ d, i.neighbour? q (p - j) = some d) →
      i.Contains q ((i.search q p fuel n).digits * 10 ^ (i.search q p fuel n).exponent)
  | 0, n, j, hnj, hj, _ => by omega
  | fuel + 1, n, j, hnj, hj, hd => by
    rcases i.neighbour?_cases q (p - n) with ⟨d, hn, hit⟩ | ⟨hn, -, -⟩
    · simp only [Interval.search, hn]
      exact (i.isHit_iff q (p - n) d).mp hit
    · simp only [Interval.search, hn]
      have hne : n ≠ j := by
        rintro rfl
        obtain ⟨d, hd⟩ := hd
        rw [hn] at hd
        cases hd
      exact search_contains (by omega) (by omega) hd

/-- The function `strip` leaves out trailing zeros and raises the exponent, so that a decimal keeps
its value. -/
theorem Decimal.strip_value : ∀ (fuel : ℕ) (d : Decimal),
    ((d.strip fuel).digits : ℚ) * 10 ^ (d.strip fuel).exponent = d.digits * 10 ^ d.exponent
  | 0, d => rfl
  | fuel + 1, d => by
    rw [Decimal.strip]
    -- A zero at the end goes, and the exponent grows by one.
    split_ifs with h
    · have h10 : (d.digits : ℚ) = (d.digits / 10 : ℕ) * 10 := by
        exact_mod_cast (Nat.div_mul_cancel (Nat.dvd_of_mod_eq_zero h.2)).symm
      rw [strip_value fuel, h10, zpow_add₀ (by norm_num), zpow_one]
      ring
    · rfl

/-- A positive number is no less than a tenth of the power of ten that `magnitude` tells, so that 17
digits reach its last place. -/
theorem magnitude_spec {m : ℕ} (q : ℤ) (hm : m ≠ 0) :
    (10 : ℚ) ^ magnitude m q ≤ 10 * (m * 2 ^ q) := by
  unfold magnitude digitCount
  -- Below the unit the digits of `m * 5 ^ j` are counted, which has `j` places.
  split_ifs with h
  · obtain ⟨j, rfl⟩ := Int.eq_ofNat_of_zero_le h
    rw [Int.toNat_natCast, zpow_natCast, zpow_natCast]
    have hn : m * Nat.pow 2 j ≠ 0 := Nat.mul_ne_zero hm (Nat.pow_pos (by omega)).ne'
    exact_mod_cast pow_length_digits_le hn
  · obtain ⟨j, rfl⟩ : ∃ j : ℕ, q = -(j : ℤ) := ⟨(-q).toNat, by omega⟩
    rw [neg_neg, Int.toNat_natCast, zpow_add₀ (by norm_num), zpow_natCast, zpow_neg, zpow_neg,
      zpow_natCast, zpow_natCast]
    have hn : m * Nat.pow 5 j ≠ 0 := Nat.mul_ne_zero hm (Nat.pow_pos (by omega)).ne'
    have h10 : ((10 : ℚ) ^ (digits (m * Nat.pow 5 j)).length) ≤ 10 * (m * 5 ^ j) := by
      exact_mod_cast pow_length_digits_le hn
    have hsplit : (10 : ℚ) ^ j = 5 ^ j * 2 ^ j := by rw [← mul_pow]; norm_num
    rw [← div_eq_mul_inv, ← div_eq_mul_inv, div_le_iff₀ (by positivity), hsplit]
    calc (10 : ℚ) ^ (digits (m * Nat.pow 5 j)).length ≤ 10 * (m * 5 ^ j) := h10
      _ = 10 * (m / 2 ^ j) * (5 ^ j * 2 ^ j) := by field_simp

end Number

namespace Double

/-- A number whose interval is narrow below has the least `significand`, so that it is a power of
two. -/
theorem significand_of_isNarrow {b : Fin 2047} {f : Fin 4503599627370496}
    (h : isNarrow b f = true) : significand b f = 2 ^ 52 := by
  simp only [isNarrow, Bool.and_eq_true, beq_iff_eq, decide_eq_true_eq] at h
  rw [significand_of_pos f (by omega), h.1, Nat.zero_add]

/-- The grid of 17 digits is finer than the rounding interval of any number of 53 bits is wide,
which is why the search ends with a hit. -/
theorem step_lt_width {b : Fin 2047} {f : Fin 4503599627370496} (hm : significand b f ≠ 0) :
    (10 : ℚ) ^ (magnitude (significand b f) (exponent b) - 17)
      < (((Interval.of (significand b f) (isNarrow b f)).high : ℚ)
        - (Interval.of (significand b f) (isNarrow b f)).low) * 2 ^ (exponent b - 2) := by
  have hlt : (significand b f : ℚ) < 2 ^ 53 := by exact_mod_cast significand_lt b f
  have hpos : (0 : ℚ) < 2 ^ exponent b := by positivity
  have hmag := magnitude_spec (exponent b) hm
  have hq : (2 : ℚ) ^ (exponent b - 2) = 2 ^ exponent b / 4 := by
    rw [zpow_sub₀ (by norm_num)]
    norm_num
  have hstep : (10 : ℚ) ^ (magnitude (significand b f) (exponent b) - 17)
      ≤ significand b f * 2 ^ exponent b / 10 ^ 16 := by
    rw [zpow_sub₀ (by norm_num), show ((10 : ℚ) ^ (17 : ℤ)) = 10 * 10 ^ 16 by norm_num,
      ← div_div]
    gcongr
    linarith
  refine lt_of_le_of_lt hstep ?_
  rw [hq]
  -- A narrow interval is only three quarters as wide, but its number has the least significand.
  cases hn : isNarrow b f
  · have hlow : 2 ≤ 4 * significand b f := by omega
    simp only [Interval.of, Bool.false_eq_true, if_false, Nat.cast_sub hlow]
    push_cast
    nlinarith
  · have hlow : 1 ≤ 4 * significand b f := by omega
    simp only [Interval.of, if_true, Nat.cast_sub hlow]
    rw [significand_of_isNarrow hn]
    push_cast
    nlinarith

/-- The shortest decimal of a positive finite number is in its rounding interval. -/
theorem decimal_roundsTo {b : Fin 2047} {f : Fin 4503599627370496} (hm : significand b f ≠ 0) :
    RoundsTo b f ((decimal b f).digits * 10 ^ (decimal b f).exponent) := by
  have hlow : (Interval.of (significand b f) (isNarrow b f)).low < 4 * significand b f := by
    simp only [Interval.of]
    split_ifs <;> omega
  obtain ⟨d, hd, -⟩ := Interval.neighbour?_of_step hlow
    (show 4 * significand b f < 4 * significand b f + 2 by omega) (step_lt_width hm)
  have hsearch := Interval.search_contains (p := magnitude (significand b f) (exponent b))
    (show 1 ≤ 17 by omega) (show 17 < 1 + 17 by omega) ⟨d, hd⟩
  unfold decimal
  dsimp only
  rw [if_neg hm, shortest, Decimal.strip_value]
  exact hsearch

/-- A finite number is read back by `ofDecimal` from any decimal of the value of its shortest one.
Zero is the case that the interval does not cover. -/
theorem ofDecimal_decimal (negative : Bool) (b : Fin 2047) (f : Fin 4503599627370496) {n : ℕ}
    {x : ℤ} (h : (n : ℚ) * 10 ^ x = (decimal b f).digits * 10 ^ (decimal b f).exponent) :
    ofDecimal negative n x = .finite negative b f := by
  -- Zero is read as such, whatever its exponent.
  by_cases hm : significand b f = 0
  · have hpos : (10 : ℚ) ^ x ≠ 0 := by positivity
    rw [decimal, if_pos hm, Nat.cast_zero, zero_mul, mul_eq_zero, or_iff_left hpos,
      Nat.cast_eq_zero] at h
    have hb : b.val = 0 := by
      by_contra hb
      rw [significand_of_pos f hb] at hm
      omega
    rw [significand_of_zero f hb] at hm
    have hb0 : b = 0 := Fin.ext hb
    have hf0 : f = 0 := Fin.ext hm
    rw [ofDecimal, if_pos h, hb0, hf0, zero]
  · have hr := decimal_roundsTo hm
    rw [← h] at hr
    have hn : n ≠ 0 := by
      rintro rfl
      have := hr.lower hm
      have hpos : (0 : ℚ) < 2 ^ (-1075 : ℤ) := by positivity
      rw [Nat.cast_zero, zero_mul] at this
      linarith
    exact ofDecimal_of_roundsTo hm hn hr

end Double

end SchemaForge
