import Mathlib.Algebra.Order.Field.Rat
import Mathlib.Algebra.Order.Field.Power
import Mathlib.Tactic.FieldSimp
import Mathlib.Tactic.Linarith
import Mathlib.Tactic.NormNum
import Mathlib.Tactic.Positivity
import Mathlib.Tactic.Ring
import SchemaForge.Number.Shortest

/-!
# Rounding to binary64

`Double.ofRatio` and `Double.ofDecimal` round to the nearest number: every rational in the rounding
interval of a positive finite number (`Interval.Contains`) is rounded to that number
(`ofRatio_of_roundsTo`, `ofDecimal_of_roundsTo`).

The proof goes bottom up. `divToNearest` is rounding of a quotient (`divToNearest_eq`), `scaleOf`
is the one exponent at which the quotient has a significand of 53 bits (`scaleOf_spec`,
`scale_unique`), and at that exponent the rounded quotient is the significand. The exception is
the quarter unit below a power of two, where the scale is one less and the quotient is rounded up to
`2 ^ 53`.
-/

namespace SchemaForge

open Number

namespace Double

/-- Where the biased exponent is zero, the significand is the fraction as it is, without the
implicit bit. -/
theorem significand_of_zero {b : Fin 2047} (f : Fin 4503599627370496) (h : b.val = 0) :
    significand b f = f.val := by
  rw [significand, if_pos h]

/-- Where the biased exponent is positive, the significand has the implicit bit. -/
theorem significand_of_pos {b : Fin 2047} (f : Fin 4503599627370496) (h : b.val ≠ 0) :
    significand b f = f.val + 2 ^ 52 := by
  rw [significand, if_neg h]
  rfl

/-- The significand of every finite number is below `2 ^ 53`, the leading bit included. -/
theorem significand_lt (b : Fin 2047) (f : Fin 4503599627370496) : significand b f < 2 ^ 53 := by
  have hf := f.isLt
  rcases Nat.eq_zero_or_pos b.val with h | h
  · rw [significand_of_zero f h]
    omega
  · rw [significand_of_pos f (by omega)]
    omega

/-- No `exponent` is below -1074, that of the least positive binary64 number. -/
theorem le_exponent (b : Fin 2047) : -1074 ≤ exponent b := by
  unfold exponent
  split_ifs <;> omega

/-- No `exponent` is above 971, that of the greatest finite binary64 number. -/
theorem exponent_le (b : Fin 2047) : exponent b ≤ 971 := by
  have hb := b.isLt
  unfold exponent
  split_ifs <;> omega

/-- A number of `Fin n` is given back by `Fin.ofNat` from its value. -/
theorem ofNat_eq_of_val {n : ℕ} [NeZero n] {k : ℕ} (i : Fin n) (h : k = i.val) :
    Fin.ofNat n k = i := by
  subst h
  exact Fin.ext (Nat.mod_eq_of_lt i.isLt)

/-- The function `ofScaled` puts every finite number together again from its significand and its
exponent. -/
theorem ofScaled_significand (negative : Bool) (b : Fin 2047) (f : Fin 4503599627370496) :
    ofScaled negative (significand b f) (exponent b) = .finite negative b f := by
  have hf := f.isLt
  have hb := b.isLt
  have h52 : Nat.pow 2 52 = 4503599627370496 := rfl
  unfold ofScaled
  -- Without the implicit bit the significand is too small to be a normal one.
  rcases Nat.eq_zero_or_pos b.val with h | h
  · have hb0 : b = 0 := Fin.ext h
    rw [significand_of_zero f h, if_pos (by omega), hb0, ofNat_eq_of_val f rfl]
  · have hq : (exponent b + 1075).toNat = b.val := by
      unfold exponent
      split_ifs <;> omega
    rw [significand_of_pos f (by omega), if_neg (by omega), hq]
    simp only [hb, if_true]
    rw [ofNat_eq_of_val b rfl, ofNat_eq_of_val f (by omega)]

/-! ## The nearest integer of a quotient -/

/-- The function `divToNearest` gives the integer that is within half of a quotient. If it is off by
exactly a half, the even one is given. -/
theorem divToNearest_eq {n d m : ℕ} (hd : 0 < d) (hl : 2 * (m * d) ≤ 2 * n + d)
    (hh : 2 * n ≤ 2 * (m * d) + d)
    (heven : 2 * (m * d) = 2 * n + d ∨ 2 * n = 2 * (m * d) + d → m % 2 = 0) :
    divToNearest n d = m := by
  have hn := Nat.div_add_mod n d
  have hr := Nat.mod_lt n hd
  unfold divToNearest
  generalize n / d = q at *
  generalize n % d = r at *
  -- An integer within half of the quotient is the floor or the one above it.
  have hqm : q ≤ m := by
    by_contra hlt
    have : (m + 1) * d ≤ q * d := Nat.mul_le_mul_right d (by omega)
    rw [Nat.add_mul, Nat.mul_comm q d] at this
    omega
  have hmq : m ≤ q + 1 := by
    by_contra hlt
    have : (q + 2) * d ≤ m * d := Nat.mul_le_mul_right d (by omega)
    rw [Nat.add_mul, Nat.mul_comm q d] at this
    omega
  rcases Nat.eq_or_lt_of_le hqm with rfl | hlt
  · rw [Nat.mul_comm q d] at *
    dsimp only
    split_ifs <;> omega
  · obtain rfl : m = q + 1 := by omega
    rw [Nat.add_mul, Nat.mul_comm q d] at *
    dsimp only
    split_ifs <;> omega

/-- The form of `divToNearest_eq` for rational numbers: what is within half of the quotient, and
even where it is exactly half away, is given. -/
theorem divToNearest_eq_of_near {n d m : ℕ} {x : ℚ} (hd : 0 < d) (hx : x = n / d)
    (hl : (m : ℚ) - 1 / 2 ≤ x) (hh : x ≤ m + 1 / 2)
    (heven : x = m - 1 / 2 ∨ x = m + 1 / 2 → m % 2 = 0) : divToNearest n d = m := by
  have hd' : (0 : ℚ) < d := by exact_mod_cast hd
  have hn : (n : ℚ) = x * d := by rw [hx]; field_simp
  -- The three conditions are those of integers, with the quotient multiplied out.
  refine divToNearest_eq hd ?_ ?_ fun h => heven ?_
  · have : (2 * (m * d) : ℚ) ≤ 2 * n + d := by rw [hn]; nlinarith
    exact_mod_cast this
  · have : (2 * n : ℚ) ≤ 2 * (m * d) + d := by rw [hn]; nlinarith
    exact_mod_cast this
  · rcases h with h | h
    · left
      have h' : (2 * (m * d) : ℚ) = 2 * n + d := by exact_mod_cast h
      rw [hx]; field_simp; linarith
    · right
      have h' : (2 * n : ℚ) = 2 * (m * d) + d := by exact_mod_cast h
      rw [hx]; field_simp; linarith

/-! ## The scale of a quotient -/

/-- A quotient lies between the powers of two that the binary lengths of its parts tell. -/
theorem log2_bounds {n d : ℕ} (hn : n ≠ 0) (hd : d ≠ 0) :
    (2 : ℚ) ^ ((n.log2 : ℤ) - d.log2 - 1) ≤ n / d ∧
      (n : ℚ) / d < 2 ^ ((n.log2 : ℤ) - d.log2 + 1) := by
  have hd' : (0 : ℚ) < d := by exact_mod_cast Nat.pos_of_ne_zero hd
  have n1 : (2 : ℚ) ^ (n.log2 : ℤ) ≤ n := by exact_mod_cast Nat.log2_self_le hn
  have n2 : (n : ℚ) < 2 ^ ((n.log2 : ℤ) + 1) := by exact_mod_cast Nat.lt_log2_self
  have d1 : (2 : ℚ) ^ (d.log2 : ℤ) ≤ d := by exact_mod_cast Nat.log2_self_le hd
  have d2 : (d : ℚ) < 2 ^ ((d.log2 : ℤ) + 1) := by exact_mod_cast Nat.lt_log2_self
  -- The quotient is bounded by the powers of two around its numerator and its denominator.
  constructor
  · rw [le_div_iff₀ hd']
    calc (2 : ℚ) ^ ((n.log2 : ℤ) - d.log2 - 1) * d
        ≤ 2 ^ ((n.log2 : ℤ) - d.log2 - 1) * 2 ^ ((d.log2 : ℤ) + 1) :=
          mul_le_mul_of_nonneg_left d2.le (by positivity)
      _ = 2 ^ (n.log2 : ℤ) := by rw [← zpow_add₀ (by norm_num)]; congr 1; ring
      _ ≤ n := n1
  · rw [div_lt_iff₀ hd']
    calc (n : ℚ) < 2 ^ ((n.log2 : ℤ) + 1) := n2
      _ = 2 ^ ((n.log2 : ℤ) - d.log2 + 1) * 2 ^ (d.log2 : ℤ) := by
          rw [← zpow_add₀ (by norm_num)]; congr 1; ring
      _ ≤ 2 ^ ((n.log2 : ℤ) - d.log2 + 1) * d := mul_le_mul_of_nonneg_left d1 (by positivity)

/-- The comparison by which `scaleOf` decides, made in integers, is a comparison of the quotient
with a power of two. -/
theorem below_iff {n d : ℕ} (hd : d ≠ 0) (k : ℤ) :
    (if 0 ≤ k then n < d * Nat.pow 2 k.toNat else n * Nat.pow 2 (-k).toNat < d) ↔
      (n : ℚ) / d < 2 ^ k := by
  have hd' : (0 : ℚ) < d := by exact_mod_cast Nat.pos_of_ne_zero hd
  rw [div_lt_iff₀ hd']
  split_ifs with h
  · obtain ⟨j, rfl⟩ := Int.eq_ofNat_of_zero_le h
    rw [Int.toNat_natCast, zpow_natCast, mul_comm ((2 : ℚ) ^ j)]
    exact_mod_cast Iff.rfl
  · obtain ⟨j, rfl⟩ : ∃ j : ℕ, k = -(j : ℤ) := ⟨(-k).toNat, by omega⟩
    rw [neg_neg, Int.toNat_natCast, zpow_neg, zpow_natCast, inv_mul_eq_div,
      lt_div_iff₀ (by positivity)]
    exact_mod_cast Iff.rfl

/-- The scale of a positive quotient: it is no less than -1074, the quotient is below `2 ^ 53` units
of it, and it reaches `2 ^ 52` units above the least scale. -/
theorem scaleOf_spec {n d : ℕ} (hn : n ≠ 0) (hd : d ≠ 0) :
    -1074 ≤ scaleOf n d ∧ (n : ℚ) / d < 2 ^ (scaleOf n d + 53) ∧
      (scaleOf n d = -1074 ∨ (2 : ℚ) ^ (scaleOf n d + 52) ≤ n / d) := by
  obtain ⟨hl, hh⟩ := log2_bounds hn hd
  unfold scaleOf
  simp only [below_iff hd]
  generalize (n.log2 : ℤ) - d.log2 = k at *
  have hmono : ∀ {i j : ℤ}, i ≤ j → (2 : ℚ) ^ i ≤ 2 ^ j := fun h =>
    zpow_le_zpow_right₀ (by norm_num) h
  -- The lengths leave two scales, and the comparison with the power between them decides.
  by_cases hb : (n : ℚ) / d < 2 ^ k
  · simp only [hb, if_true]
    refine ⟨le_max_left _ _, lt_of_lt_of_le hb (hmono (by omega)), ?_⟩
    rcases le_total (k - 53) (-1074) with h | h
    · exact Or.inl (max_eq_left h)
    · right
      rw [max_eq_right h]
      exact le_trans (hmono (by omega)) hl
  · simp only [hb, if_false]
    refine ⟨le_max_left _ _, lt_of_lt_of_le hh (hmono (by omega)), ?_⟩
    rcases le_total (k - 52) (-1074) with h | h
    · exact Or.inl (max_eq_left h)
    · right
      rw [max_eq_right h]
      exact le_trans (hmono (by omega)) (not_lt.mp hb)

/-- A rational has one scale only with the properties of `scaleOf_spec`. -/
theorem scale_unique {x : ℚ} {e q : ℤ} (he : -1074 ≤ e) (hq : -1074 ≤ q)
    (he' : x < 2 ^ (e + 53)) (hq' : x < 2 ^ (q + 53)) (hel : e = -1074 ∨ (2 : ℚ) ^ (e + 52) ≤ x)
    (hql : q = -1074 ∨ (2 : ℚ) ^ (q + 52) ≤ x) : e = q := by
  have hlt : ∀ {i j : ℤ}, (2 : ℚ) ^ i < 2 ^ j → i < j := fun h =>
    (zpow_lt_zpow_iff_right₀ (by norm_num)).mp h
  -- Of two such scales neither can be the greater one: the number would be above the other.
  have h1 : e ≤ q := by
    rcases hel with h | h
    · omega
    · have := hlt (lt_of_le_of_lt h hq')
      omega
  have h2 : q ≤ e := by
    rcases hql with h | h
    · omega
    · have := hlt (lt_of_le_of_lt h he')
      omega
  omega

end Double

/-! ## The rounding interval -/

/-- The rationals of a rounding interval, whose units are quarters of the last place, `2 ^ (q -
2)`. -/
def Number.Interval.Contains (i : Interval) (q : ℤ) (x : ℚ) : Prop :=
  if i.closed then i.low * 2 ^ (q - 2) ≤ x ∧ x ≤ i.high * 2 ^ (q - 2)
  else i.low * 2 ^ (q - 2) < x ∧ x < i.high * 2 ^ (q - 2)

/-- How far the rounding interval reaches below its number, in units of the last place: half a unit,
or a quarter below a power of two. -/
def Number.reachBelow (narrow : Bool) : ℚ := if narrow then 1 / 4 else 1 / 2

/-- The rounding interval of `m * 2 ^ q` in units of the last place. Its ends belong to it for an
even `m` only, since ties go to the even number. -/
theorem Number.Interval.contains_of_iff {m : ℕ} {narrow : Bool} {q : ℤ} {x : ℚ} (hm : m ≠ 0) :
    (Interval.of m narrow).Contains q x ↔
      ((m : ℚ) - reachBelow narrow) * 2 ^ q ≤ x ∧ x ≤ ((m : ℚ) + 1 / 2) * 2 ^ q ∧
        (m % 2 = 0 ∨
          ((m : ℚ) - reachBelow narrow) * 2 ^ q < x ∧ x < ((m : ℚ) + 1 / 2) * 2 ^ q) := by
  -- The units of the interval are quarters of the last place.
  have hq : (2 : ℚ) ^ (q - 2) = 2 ^ q / 4 := by
    rw [zpow_sub₀ (by norm_num)]
    norm_num
  have hlow : ((Interval.of m narrow).low : ℚ) * 2 ^ (q - 2)
      = ((m : ℚ) - reachBelow narrow) * 2 ^ q := by
    have h4 : (if narrow then 1 else 2) ≤ 4 * m := by split_ifs <;> omega
    rw [hq, Interval.of, reachBelow, Nat.cast_sub h4]
    push_cast
    split_ifs <;> ring
  have hhigh : ((Interval.of m narrow).high : ℚ) * 2 ^ (q - 2) = ((m : ℚ) + 1 / 2) * 2 ^ q := by
    rw [hq, Interval.of]
    push_cast
    ring
  unfold Interval.Contains
  rw [hlow, hhigh]
  by_cases he : m % 2 = 0
  · rw [if_pos (show (Interval.of m narrow).closed = true by simp [Interval.of, he])]
    exact ⟨fun h => ⟨h.1, h.2, Or.inl he⟩, fun h => ⟨h.1, h.2.1⟩⟩
  · rw [if_neg (show ¬(Interval.of m narrow).closed = true by simp [Interval.of, he])]
    refine ⟨fun h => ⟨h.1.le, h.2.le, Or.inr h⟩, fun h => ?_⟩
    rcases h.2.2 with h' | h'
    · exact absurd h' he
    · exact h'

namespace Double

/-- Whether the rounding interval of a number is narrow below: the number is the least one at its
exponent, and that is not the least exponent. -/
def isNarrow (b : Fin 2047) (f : Fin 4503599627370496) : Bool := f.val == 0 && 1 < b.val

/-- The rationals that round to a positive finite number: those of its rounding interval. -/
def RoundsTo (b : Fin 2047) (f : Fin 4503599627370496) (x : ℚ) : Prop :=
  (Interval.of (significand b f) (isNarrow b f)).Contains (exponent b) x

/-- A quotient within half a unit of `m` at a scale is rounded to `m` there, if `m` is even or the
quotient is nearer than half a unit. -/
theorem divToNearest_scaled {n d m : ℕ} {e : ℤ} (hd : d ≠ 0)
    (hl : ((m : ℚ) - 1 / 2) * 2 ^ e ≤ (n : ℚ) / d) (hh : (n : ℚ) / d ≤ ((m : ℚ) + 1 / 2) * 2 ^ e)
    (heven : m % 2 = 0 ∨ ((m : ℚ) - 1 / 2) * 2 ^ e < (n : ℚ) / d ∧
      (n : ℚ) / d < ((m : ℚ) + 1 / 2) * 2 ^ e) :
    (if 0 ≤ e then divToNearest n (d * Nat.pow 2 e.toNat)
      else divToNearest (n * Nat.pow 2 (-e).toNat) d) = m := by
  have he : (0 : ℚ) < 2 ^ e := by positivity
  have hl' : (m : ℚ) - 1 / 2 ≤ (n : ℚ) / d / 2 ^ e := (le_div_iff₀ he).mpr hl
  have hh' : (n : ℚ) / d / 2 ^ e ≤ (m : ℚ) + 1 / 2 := (div_le_iff₀ he).mpr hh
  have heven' : (n : ℚ) / d / 2 ^ e = m - 1 / 2 ∨ (n : ℚ) / d / 2 ^ e = m + 1 / 2 →
      m % 2 = 0 := by
    intro ht
    rcases heven with h | ⟨h1, h2⟩
    · exact h
    · have h1' := (lt_div_iff₀ he).mpr h1
      have h2' := (div_lt_iff₀ he).mpr h2
      rcases ht with ht | ht <;> linarith
  -- By the sign of the scale its power is in the divisor or in the dividend.
  split_ifs with h
  · obtain ⟨j, rfl⟩ := Int.eq_ofNat_of_zero_le h
    refine divToNearest_eq_of_near (Nat.mul_pos (by omega) (Nat.pow_pos (by omega))) ?_ hl' hh'
      heven'
    rw [Int.toNat_natCast, Nat.cast_mul, div_div, zpow_natCast]
    norm_cast
  · obtain ⟨j, rfl⟩ : ∃ j : ℕ, e = -(j : ℤ) := ⟨(-e).toNat, by omega⟩
    refine divToNearest_eq_of_near (by omega) ?_ hl' hh' heven'
    rw [neg_neg, Int.toNat_natCast, Nat.cast_mul, zpow_neg, zpow_natCast, div_inv_eq_mul,
      div_mul_eq_mul_div]
    norm_cast

/-- Above the least exponent every significand reaches `2 ^ 52`. -/
theorem le_significand {b : Fin 2047} (f : Fin 4503599627370496) (h : exponent b ≠ -1074) :
    2 ^ 52 ≤ significand b f := by
  have hb : b.val ≠ 0 := fun h0 => h (by rw [exponent, if_pos h0])
  rw [significand_of_pos f hb]
  omega

/-- Above the least exponent the least significand has a narrow interval. -/
theorem isNarrow_of_significand {b : Fin 2047} {f : Fin 4503599627370496}
    (h : exponent b ≠ -1074) (hm : significand b f = 2 ^ 52) : isNarrow b f = true := by
  have hb : b.val ≠ 0 := fun h0 => h (by rw [exponent, if_pos h0])
  have hb1 : b.val ≠ 1 := fun h1 => h (by rw [exponent, if_neg hb, h1]; rfl)
  rw [significand_of_pos f hb] at hm
  have hf : f.val = 0 := by omega
  have hlt : 1 < b.val := by omega
  simp [isNarrow, hf, hlt]

/-- The interval of numbers that round to one reaches no further below it (`reachBelow`) than half a
unit. -/
theorem reachBelow_le (narrow : Bool) : reachBelow narrow ≤ 1 / 2 := by
  unfold reachBelow
  split_ifs <;> norm_num

section RoundsTo

variable {negative : Bool} {n d : ℕ} {b : Fin 2047} {f : Fin 4503599627370496} {x : ℚ}

/-- What rounds to a number is below `2 ^ 53` units of its last place, so that its scale is not
above the exponent. -/
theorem RoundsTo.lt_units (hm : significand b f ≠ 0) (h : RoundsTo b f x) :
    x < 2 ^ (exponent b + 53) := by
  obtain ⟨-, hh, -⟩ := (Interval.contains_of_iff hm).mp h
  have hpos : (0 : ℚ) < 2 ^ exponent b := by positivity
  have hm53 : (significand b f : ℚ) + 1 ≤ 2 ^ 53 := by exact_mod_cast significand_lt b f
  rw [zpow_add₀ (by norm_num), show ((2 : ℚ) ^ (53 : ℤ)) = 2 ^ 53 from rfl]
  nlinarith

/-- At the exponent of a number, a quotient in its rounding interval is rounded to its
significand. -/
theorem ofRatio_at_exponent (hm : significand b f ≠ 0) (hn : n ≠ 0) (hd : d ≠ 0)
    (h : RoundsTo b f ((n : ℚ) / d))
    (hcase : exponent b = -1074 ∨ (2 : ℚ) ^ (exponent b + 52) ≤ (n : ℚ) / d) :
    ofRatio negative n d = .finite negative b f := by
  obtain ⟨hl, hh, heven⟩ := (Interval.contains_of_iff hm).mp h
  obtain ⟨he, heX, hel⟩ := scaleOf_spec hn hd
  -- The scale that is chosen by the lengths in bits is the one of the number.
  have hscale := scale_unique he (le_exponent b) heX (h.lt_units hm) hel hcase
  have hlt := significand_lt b f
  have hpos : (0 : ℚ) < 2 ^ exponent b := by positivity
  have hbelow := reachBelow_le (isNarrow b f)
  unfold ofRatio
  rw [if_neg (by omega)]
  dsimp only
  rw [hscale, divToNearest_scaled hd ?_ hh ?_, if_neg ?_, ofScaled_significand]
  · rw [show Nat.pow 2 53 = 2 ^ 53 from rfl]
    omega
  · nlinarith
  · rcases heven with heven | ⟨h1, h2⟩
    · exact Or.inl heven
    · exact Or.inr ⟨by nlinarith, h2⟩

/-- If a quotient in the rounding interval of a number does not reach `2 ^ 52` units at its
exponent, then the number is a power of two. -/
theorem significand_of_lt (hm : significand b f ≠ 0) (h : RoundsTo b f x)
    (hne : exponent b ≠ -1074) (hlt : x < 2 ^ (exponent b + 52)) :
    significand b f = 2 ^ 52 := by
  obtain ⟨hl, -, -⟩ := (Interval.contains_of_iff hm).mp h
  have h52 := le_significand f hne
  have hpos : (0 : ℚ) < 2 ^ exponent b := by positivity
  have hbelow := reachBelow_le (isNarrow b f)
  have hcast : (significand b f : ℚ) < 2 ^ 52 + 1 := by
    rw [zpow_add₀ (by norm_num), show ((2 : ℚ) ^ (52 : ℤ)) = 2 ^ 52 from rfl] at hlt
    nlinarith
  have hnat : significand b f < 2 ^ 52 + 1 := by exact_mod_cast hcast
  omega

/-- Below a power of two the scale is one less, and a quotient in the rounding interval is rounded
up to `2 ^ 53` there, which is the power of two. -/
theorem ofRatio_below_power (hm : significand b f ≠ 0) (hn : n ≠ 0) (hd : d ≠ 0)
    (h : RoundsTo b f ((n : ℚ) / d)) (hne : exponent b ≠ -1074)
    (hX52 : (n : ℚ) / d < 2 ^ (exponent b + 52)) :
    ofRatio negative n d = .finite negative b f := by
  obtain ⟨hl, -, -⟩ := (Interval.contains_of_iff hm).mp h
  obtain ⟨he, heX, hel⟩ := scaleOf_spec hn hd
  have hq := le_exponent b
  have hms := significand_of_lt hm h hne hX52
  rw [isNarrow_of_significand hne hms, hms] at hl
  -- In units of the scale below, the interval starts a half below `2 ^ 53`.
  have hq1 : (2 : ℚ) ^ exponent b = 2 * 2 ^ (exponent b - 1) := by
    rw [zpow_sub₀ (by norm_num)]
    ring
  have hl' : ((2 : ℚ) ^ 53 - 1 / 2) * 2 ^ (exponent b - 1) ≤ (n : ℚ) / d := by
    rw [hq1, show reachBelow true = 1 / 4 from rfl] at hl
    push_cast at hl
    linarith
  have hh' : (n : ℚ) / d < 2 ^ 53 * 2 ^ (exponent b - 1) := by
    rw [show exponent b + 52 = exponent b - 1 + 53 by ring, zpow_add₀ (by norm_num),
      show ((2 : ℚ) ^ (53 : ℤ)) = 2 ^ 53 from rfl] at hX52
    linarith
  have hpos1 : (0 : ℚ) < 2 ^ (exponent b - 1) := by positivity
  have hscale : scaleOf n d = exponent b - 1 := by
    refine scale_unique he (by omega) heX ?_ hel (Or.inr ?_)
    · rw [show exponent b - 1 + 53 = exponent b + 52 by ring]
      exact hX52
    · rw [zpow_add₀ (by norm_num), show ((2 : ℚ) ^ (52 : ℤ)) = 2 ^ 52 from rfl]
      linarith
  have hround := divToNearest_scaled (m := 2 ^ 53) (e := exponent b - 1) (n := n) hd
    (by push_cast; exact hl') (by push_cast; linarith) (Or.inl (by norm_num))
  unfold ofRatio
  rw [if_neg (by omega)]
  dsimp only
  rw [hscale, hround, if_pos (show 2 ^ 53 = Nat.pow 2 53 from rfl),
    show exponent b - 1 + 1 = exponent b by ring,
    show Nat.pow 2 52 = significand b f from hms.symm, ofScaled_significand]

/-- The function `ofRatio` rounds every quotient in the rounding interval of a number to this
number. -/
theorem ofRatio_of_roundsTo (hm : significand b f ≠ 0) (hn : n ≠ 0) (hd : d ≠ 0)
    (h : RoundsTo b f ((n : ℚ) / d)) : ofRatio negative n d = .finite negative b f := by
  by_cases hcase : exponent b = -1074 ∨ (2 : ℚ) ^ (exponent b + 52) ≤ (n : ℚ) / d
  · exact ofRatio_at_exponent hm hn hd h hcase
  · push Not at hcase
    exact ofRatio_below_power hm hn hd h hcase.1 hcase.2

end RoundsTo

/-- What rounds to a positive finite number is at least half of the least one. -/
theorem RoundsTo.lower {b : Fin 2047} {f : Fin 4503599627370496} {x : ℚ}
    (hm : significand b f ≠ 0) (h : RoundsTo b f x) : (2 : ℚ) ^ (-1075 : ℤ) ≤ x := by
  obtain ⟨hl, -, -⟩ := (Interval.contains_of_iff hm).mp h
  have hbelow := reachBelow_le (isNarrow b f)
  have hm1 : (1 : ℚ) ≤ significand b f := by exact_mod_cast Nat.pos_of_ne_zero hm
  have hq : (2 : ℚ) ^ (-1074 : ℤ) ≤ 2 ^ exponent b :=
    zpow_le_zpow_right₀ (by norm_num) (le_exponent b)
  have hpos : (0 : ℚ) < 2 ^ exponent b := by positivity
  have h1075 : (2 : ℚ) ^ (-1075 : ℤ) = 1 / 2 * 2 ^ (-1074 : ℤ) := by
    rw [show (-1075 : ℤ) = -1074 - 1 by norm_num, zpow_sub₀ (by norm_num)]
    ring
  -- The lower end of the interval is at least half of the smallest positive number.
  calc (2 : ℚ) ^ (-1075 : ℤ) = 1 / 2 * 2 ^ (-1074 : ℤ) := h1075
    _ ≤ 1 / 2 * 2 ^ exponent b := by linarith
    _ ≤ ((significand b f : ℚ) - reachBelow (isNarrow b f)) * 2 ^ exponent b :=
        mul_le_mul_of_nonneg_right (by linarith) hpos.le
    _ ≤ x := hl

/-- What rounds to a finite number is below `2 ^ 1024`, so that it does not become infinite. -/
theorem RoundsTo.upper {b : Fin 2047} {f : Fin 4503599627370496} {x : ℚ}
    (hm : significand b f ≠ 0) (h : RoundsTo b f x) : x < 2 ^ (1024 : ℤ) := by
  obtain ⟨-, hh, -⟩ := (Interval.contains_of_iff hm).mp h
  have hm53 : (significand b f : ℚ) + 1 ≤ 2 ^ 53 := by exact_mod_cast significand_lt b f
  have hpos : (0 : ℚ) < 2 ^ exponent b := by positivity
  calc x ≤ ((significand b f : ℚ) + 1 / 2) * 2 ^ exponent b := hh
    _ < 2 ^ (53 : ℤ) * 2 ^ exponent b := by
        refine mul_lt_mul_of_pos_right ?_ hpos
        rw [show ((2 : ℚ) ^ (53 : ℤ)) = 2 ^ 53 from rfl]
        linarith
    _ = 2 ^ (53 + exponent b) := (zpow_add₀ (by norm_num) _ _).symm
    _ ≤ 2 ^ (1024 : ℤ) := by
        have := exponent_le b
        exact zpow_le_zpow_right₀ (by norm_num) (by omega)

/-- A third of the binary length bounds the decimal length, as `ofDecimal` estimates it. -/
theorem lt_pow_log2_div (n : ℕ) : (n : ℚ) < 8 * 10 ^ ((n.log2 : ℤ) / 3) := by
  have h1 : n < 8 * 10 ^ (n.log2 / 3) := by
    calc n < 2 ^ (n.log2 + 1) := Nat.lt_log2_self
      _ ≤ 2 ^ (3 * (n.log2 / 3 + 1)) := Nat.pow_le_pow_right (by omega) (by omega)
      _ = 8 * 8 ^ (n.log2 / 3) := by rw [pow_mul, pow_succ]; ring
      _ ≤ 8 * 10 ^ (n.log2 / 3) := by gcongr; norm_num
  have h2 : ((n.log2 : ℤ) / 3) = ((n.log2 / 3 : ℕ) : ℤ) := by norm_cast
  rw [h2, zpow_natCast]
  exact_mod_cast h1

/-- Three binary places are less than one decimal place: `8` is less than `10`, to any power. -/
theorem pow_two_le_pow_ten (k : ℕ) : (2 : ℚ) ^ (3 * k : ℤ) ≤ 10 ^ (k : ℤ) := by
  rw [zpow_mul, zpow_natCast, zpow_natCast]
  gcongr
  norm_num

/-- A decimal that is not too large for a finite number has no exponent above 400, so that the
shortcut of `ofDecimal` for large ones is not taken. -/
theorem not_lt_of_lt_pow {n : ℕ} {x : ℤ} (hn : n ≠ 0)
    (h : (n : ℚ) * 10 ^ x < 2 ^ (1024 : ℤ)) : ¬400 < x := by
  intro hx
  have hn1 : (1 : ℚ) ≤ n := by exact_mod_cast Nat.pos_of_ne_zero hn
  have hpos : (0 : ℚ) < 10 ^ x := by positivity
  have hge : (2 : ℚ) ^ (1024 : ℤ) ≤ n * 10 ^ x := calc
    (2 : ℚ) ^ (1024 : ℤ) ≤ 2 ^ (3 * (401 : ℕ) : ℤ) :=
        zpow_le_zpow_right₀ (by norm_num) (by norm_num)
    _ ≤ 10 ^ ((401 : ℕ) : ℤ) := pow_two_le_pow_ten 401
    _ ≤ 10 ^ x := zpow_le_zpow_right₀ (by norm_num) (by omega)
    _ ≤ n * 10 ^ x := le_mul_of_one_le_left hpos.le hn1
  exact absurd h (not_lt.mpr hge)

/-- A decimal that is not too small for a positive number has digits above `10 ^ -400`, so that the
shortcut of `ofDecimal` for small ones is not taken. -/
theorem not_lt_of_pow_le {n : ℕ} {x : ℤ} (h : (2 : ℚ) ^ (-1075 : ℤ) ≤ n * 10 ^ x) :
    ¬x + (n.log2 : ℤ) / 3 < -400 := by
  intro htop
  have hpos : (0 : ℚ) < 10 ^ x := by positivity
  -- Three bits are worth less than a digit, so the number is below a power of ten with a third of
  -- its bits as exponent, and this is below the bound.
  have hsmall : (n : ℚ) * 10 ^ x < 8 * 10 ^ (x + (n.log2 : ℤ) / 3) := by
    rw [zpow_add₀ (by norm_num)]
    have := mul_lt_mul_of_pos_right (lt_pow_log2_div n) hpos
    linarith
  have hten : (10 : ℚ) ^ (x + (n.log2 : ℤ) / 3) ≤ 10 ^ (-401 : ℤ) :=
    zpow_le_zpow_right₀ (by norm_num) (by omega)
  have htwo : (10 : ℚ) ^ (-401 : ℤ) ≤ 2 ^ (-1203 : ℤ) := by
    rw [zpow_neg, show (-1203 : ℤ) = -(3 * (401 : ℕ) : ℤ) by norm_num, zpow_neg]
    exact inv_anti₀ (by positivity) (pow_two_le_pow_ten 401)
  have h3 : (8 : ℚ) * 2 ^ (-1203 : ℤ) = 2 ^ (-1200 : ℤ) := by
    rw [show (-1200 : ℤ) = 3 + -1203 by norm_num, zpow_add₀ (by norm_num)]
    norm_num
  have hlt : (2 : ℚ) ^ (-1200 : ℤ) ≤ 2 ^ (-1075 : ℤ) :=
    zpow_le_zpow_right₀ (by norm_num) (by norm_num)
  linarith

/-- The function `ofDecimal` reads every decimal in the rounding interval of a number as this
number. -/
theorem ofDecimal_of_roundsTo {negative : Bool} {n : ℕ} {x : ℤ} {b : Fin 2047}
    {f : Fin 4503599627370496} (hm : significand b f ≠ 0) (hn : n ≠ 0)
    (h : RoundsTo b f (n * 10 ^ x)) : ofDecimal negative n x = .finite negative b f := by
  unfold ofDecimal
  dsimp only
  rw [if_neg hn, if_neg (not_lt_of_lt_pow hn (h.upper hm)), if_neg (not_lt_of_pow_le (h.lower hm))]
  -- The decimal is the quotient of two whole numbers, by the sign of its exponent.
  split_ifs with h0
  · obtain ⟨j, rfl⟩ := Int.eq_ofNat_of_zero_le h0
    rw [Int.toNat_natCast]
    refine ofRatio_of_roundsTo hm (Nat.mul_ne_zero hn (Nat.pow_pos (by omega)).ne') (by omega) ?_
    rw [zpow_natCast] at h
    rw [Nat.cast_one, div_one, Nat.cast_mul]
    exact_mod_cast h
  · obtain ⟨j, rfl⟩ : ∃ j : ℕ, x = -(j : ℤ) := ⟨(-x).toNat, by omega⟩
    rw [neg_neg, Int.toNat_natCast]
    refine ofRatio_of_roundsTo hm hn (Nat.pow_pos (by omega)).ne' ?_
    rw [zpow_neg, zpow_natCast, ← div_eq_mul_inv] at h
    exact_mod_cast h

end Double

end SchemaForge
