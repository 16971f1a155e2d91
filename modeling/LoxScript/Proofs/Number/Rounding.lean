import Mathlib
import LoxScript.Number.Shortest

/-!
# Rounding to the nearest double

A positive double stands for all reals of its rounding interval. Rounding works on a mantissa with two bits behind it,
which say where the rest of the number lies; whatever the steps on the way, a number in the interval of a double of
ordinary size is rounded to that double.
-/

namespace LoxScript

namespace Number

open Float.Model Float.Model.UnpackedFloat

/-! ## The bits behind a mantissa -/

/-- What the two bits behind a mantissa say about the rest of the number. -/
def Rest (r : ℚ) : Bool → Bool → Prop
  | false, false => r = 0
  | false, true => 0 < r ∧ r < 1 / 2
  | true, false => r = 1 / 2
  | true, true => 1 / 2 < r ∧ r < 1

def Describes (em : ExtendedMantissa) (y : ℚ) : Prop :=
  Rest (y - em.mantissa) em.roundBit em.stickyBit

/-- The whole number nearest to a number, the even one of two equally near ones. -/
def RoundsTo (y : ℚ) (n : ℕ) : Prop :=
  if n % 2 = 0 then n - 1 / 2 ≤ y ∧ y ≤ n + 1 / 2 else n - 1 / 2 < y ∧ y < n + 1 / 2

variable {em : ExtendedMantissa} {y : ℚ}

theorem Rest.bounds {r : ℚ} {round sticky : Bool} (h : Rest r round sticky) : 0 ≤ r ∧ r < 1 := by
  cases round <;> cases sticky <;> simp only [Rest] at h <;> constructor <;> linarith

/-- Together the bits say whether there is a rest. -/
theorem Rest.cases_or {r : ℚ} {round sticky : Bool} (h : Rest r round sticky) :
    (round || sticky) = false ∧ r = 0 ∨ (round || sticky) = true ∧ 0 < r := by
  cases round <;> cases sticky <;> simp only [Rest] at h
  case false.false => exact .inl ⟨rfl, h⟩
  case false.true => exact .inr ⟨rfl, h.1⟩
  case true.false => exact .inr ⟨rfl, by linarith⟩
  case true.true => exact .inr ⟨rfl, by linarith⟩

theorem Describes.bounds (h : Describes em y) : em.mantissa ≤ y ∧ y < em.mantissa + 1 := by
  obtain ⟨low, high⟩ := Rest.bounds h
  constructor <;> linarith

/-- Half of a number is described by its bits, shifted by one place. -/
theorem describes_shiftRightOne (h : Describes em y) : Describes em.shiftRightOne (y / 2) := by
  obtain ⟨m, round, sticky⟩ := em
  obtain ⟨low, high⟩ := h.bounds
  have any := Rest.cases_or h
  have halves : (m : ℚ) = 2 * (m / 2 : ℕ) + (m % 2 : ℕ) := by
    exact_mod_cast (Nat.div_add_mod m 2).symm
  unfold Describes
  dsimp only [ExtendedMantissa.shiftRightOne] at any low high ⊢
  -- The bit that is shifted out is the new round bit, the old bits are the new sticky bit.
  cases Nat.mod_two_eq_zero_or_one m with
  | inl even =>
      rw [even] at halves ⊢
      cases any with
      | inl none =>
          rw [none.1]
          show y / 2 - (m / 2 : ℕ) = 0
          push_cast at halves ⊢
          linarith [none.2]
      | inr some =>
          rw [some.1]
          show 0 < y / 2 - (m / 2 : ℕ) ∧ y / 2 - (m / 2 : ℕ) < 1 / 2
          push_cast at halves
          constructor <;> linarith [some.2]
  | inr odd =>
      rw [odd] at halves ⊢
      cases any with
      | inl none =>
          rw [none.1]
          show y / 2 - (m / 2 : ℕ) = 1 / 2
          push_cast at halves
          linarith [none.2]
      | inr some =>
          rw [some.1]
          show 1 / 2 < y / 2 - (m / 2 : ℕ) ∧ y / 2 - (m / 2 : ℕ) < 1
          push_cast at halves
          constructor <;> linarith [some.2]

theorem describes_shiftRight (h : Describes em y) (n : ℕ) : Describes (em >>> n) (y / 2 ^ n) := by
  induction n with
  | zero =>
      rw [pow_zero, div_one]
      exact h
  | succ n ih =>
      have step : em >>> (n + 1) = (em >>> n).shiftRightOne := rfl
      rw [step, pow_succ, ← div_div]
      exact describes_shiftRightOne ih

theorem RoundsTo.near {n : ℕ} (h : RoundsTo y n) : (n : ℚ) - 1 / 2 ≤ y ∧ y ≤ n + 1 / 2 := by
  unfold RoundsTo at h
  split at h
  · exact h
  · exact ⟨h.1.le, h.2.le⟩

/-- Halfway numbers are rounded to even ones. -/
theorem RoundsTo.even {n : ℕ} (h : RoundsTo y n) (half : y = n - 1 / 2 ∨ y = n + 1 / 2) : n % 2 = 0 := by
  by_contra odd
  rw [RoundsTo, if_neg odd] at h
  obtain rfl | rfl := half <;> linarith [h.1, h.2]

/-- The rounded mantissa is the number rounded to a whole one. -/
theorem roundedMantissa_eq {n : ℕ} (h : Describes em y) (rounds : RoundsTo y n) : em.roundedMantissa = n := by
  obtain ⟨m, round, sticky⟩ := em
  obtain ⟨low, high⟩ := rounds.near
  have lt {a b : ℕ} (less : (a : ℚ) < b) : a < b := Nat.cast_lt.1 less
  cases round <;> cases sticky <;> simp only [Describes, Rest] at h
  case false.false | false.true =>
      show m = n
      have below : n < m + 1 := lt (by push_cast; linarith)
      have above : m < n + 1 := lt (by push_cast; linarith)
      omega
  case true.false =>
      show m + m % 2 = n
      have below : n < m + 2 := lt (by push_cast; linarith)
      have above : m < n + 1 := lt (by push_cast; linarith)
      have even : n % 2 = 0 := by
        apply rounds.even
        obtain rfl | rfl : n = m ∨ n = m + 1 := by omega
        · right
          linarith
        · left
          push_cast
          linarith
      omega
  case true.true =>
      show m + 1 = n
      have below : n < m + 2 := lt (by push_cast; linarith)
      have above : m < n := lt (by linarith)
      omega

/-! ## The interval of a double -/

theorem zpow_eq_pow_div {a : ℚ} (some_part : a ≠ 0) (e : ℤ) : a ^ e = a ^ e.toNat / a ^ (-e).toNat := by
  rw [← zpow_natCast, ← zpow_natCast, ← zpow_sub₀ some_part]
  congr 1
  omega

namespace Binary

def Holds (b : Binary) (v : ℚ) : Prop :=
  if b.mantissa % 2 = 0 then b.lower * 2 ^ (b.exponent - 2) ≤ v ∧ v ≤ b.upper * 2 ^ (b.exponent - 2)
  else b.lower * 2 ^ (b.exponent - 2) < v ∧ v < b.upper * 2 ^ (b.exponent - 2)

/-- A double of ordinary size: its mantissa has all its bits, and its neighbours exist. -/
structure Ordinary (b : Binary) : Prop where
  low : 2 ^ 52 ≤ b.mantissa
  high : b.mantissa < 2 ^ 53
  narrow : b.narrowBelow = decide (b.mantissa = 2 ^ 52)
  least : -1000 ≤ b.exponent
  most : b.exponent ≤ 900

variable {b : Binary} {v : ℚ}

theorem Holds.bounds (h : b.Holds v) : b.lower * 2 ^ (b.exponent - 2) ≤ v ∧ v ≤ b.upper * 2 ^ (b.exponent - 2) := by
  unfold Holds at h
  split at h
  · exact h
  · exact ⟨h.1.le, h.2.le⟩

/-- The interval reaches no further down than half of the last place. -/
theorem le_lower (b : Binary) : 4 * b.mantissa - 2 ≤ b.lower := by
  unfold lower value
  split <;> omega

theorem zpow_sub_two (e : ℤ) : (2 : ℚ) ^ (e - 2) = 2 ^ e / 4 := by
  rw [zpow_sub₀ two_ne_zero]
  norm_num

end Binary

/-! ## Rounding a mantissa -/

theorem targetExponent_eq (t : ℤ) : Format.binary64.targetExponent t = max (t - 53) (-1074) := rfl

/-- A mantissa of full length has no bits to lose. -/
theorem shiftToTargetExponent_full {m : ℕ} {e : ℤ} (low : 2 ^ 52 ≤ m) (high : m < 2 ^ 53) (least : -1000 ≤ e) :
    shiftToTargetExponent Format.binary64 m e .exact = (⟨m, false, false⟩, e) := by
  have size : m.log2 = 52 := by
    rw [Nat.log2_eq_iff (by omega)]
    exact ⟨low, high⟩
  have amount : (Format.binary64.targetExponent (totalExponent m e) - e).toNat = 0 := by
    rw [targetExponent_eq, totalExponent, size]
    omega
  rw [shiftToTargetExponent, shiftToExponent, amount, Nat.cast_zero, add_zero]
  rfl

/-- A mantissa that was rounded up to the next power of two loses its last bit, which is zero. -/
theorem shiftToTargetExponent_carry {e : ℤ} (least : -1000 ≤ e) :
    shiftToTargetExponent Format.binary64 (2 ^ 53) (e - 1) .exact = (⟨2 ^ 52, false, false⟩, e) := by
  have size : (2 ^ 53 : ℕ).log2 = 53 := Nat.log2_two_pow
  have amount : (Format.binary64.targetExponent (totalExponent (2 ^ 53) (e - 1)) - (e - 1)).toNat = 1 := by
    rw [targetExponent_eq, totalExponent, size]
    omega
  rw [shiftToTargetExponent, shiftToExponent, amount, Nat.cast_one, sub_add_cancel]
  rfl

theorem mantissa_ofMantissaAndAccuracy (m : ℕ) (accuracy : Accuracy) :
    (ExtendedMantissa.ofMantissaAndAccuracy m accuracy).mantissa = m := by
  cases accuracy with
  | exact => rfl
  | inexact position => cases position <;> rfl

/-- In units of the last place, a number in the interval of a double is rounded to its mantissa. -/
theorem Binary.Holds.roundsTo {b : Binary} {z : ℚ} (h : b.Holds (z * 2 ^ b.exponent)) : RoundsTo z b.mantissa := by
  have unit : (0 : ℚ) < 2 ^ b.exponent := by positivity
  have lower : (4 * b.mantissa - 2 : ℚ) ≤ b.lower := by
    have : ((4 * b.mantissa : ℕ) : ℚ) ≤ (b.lower + 2 : ℕ) := Nat.cast_le.2 (Nat.sub_le_iff_le_add.1 b.le_lower)
    push_cast at this
    linarith
  have upper : (b.upper : ℚ) = 4 * b.mantissa + 2 := by
    simp [Binary.upper, Binary.value]
  unfold Binary.Holds at h
  rw [Binary.zpow_sub_two, upper] at h
  unfold RoundsTo
  split at h
  · next even =>
      rw [if_pos even]
      constructor
      · nlinarith
      · nlinarith
  · next odd =>
      rw [if_neg odd]
      constructor
      · nlinarith
      · nlinarith

/-- Just below a power of two the last place is half as large, and what belongs to the power of two is rounded up. -/
theorem Binary.Holds.carries {b : Binary} {z : ℚ} (h : b.Holds (z * 2 ^ (b.exponent - 1))) (low : 2 ^ 52 ≤ b.mantissa)
    (narrow : b.narrowBelow = decide (b.mantissa = 2 ^ 52)) (below : z < 2 ^ 53) :
    b.mantissa = 2 ^ 52 ∧ RoundsTo z (2 ^ 53) := by
  have unit : (0 : ℚ) < 2 ^ (b.exponent - 2) := by positivity
  have double : (2 : ℚ) ^ (b.exponent - 1) = 2 * 2 ^ (b.exponent - 2) := by
    rw [← zpow_one_add₀ two_ne_zero]
    congr 1
    ring
  have twice : (b.lower : ℚ) ≤ 2 * z := by
    have := h.bounds.1
    rw [double] at this
    nlinarith
  have bound : b.lower < 2 ^ 54 := by
    have : (b.lower : ℚ) < (2 ^ 54 : ℕ) := by
      push_cast
      linarith
    exact Nat.cast_lt.1 this
  have power : b.mantissa = 2 ^ 52 := by
    unfold Binary.lower Binary.value at bound
    split at bound <;> omega
  have lower : b.lower = 2 ^ 54 - 1 := by
    rw [Binary.lower, Binary.value, narrow, power]
    rfl
  refine ⟨power, ?_⟩
  rw [lower] at twice
  rw [RoundsTo, if_pos (by norm_num)]
  push_cast at twice ⊢
  constructor
  · linarith
  · linarith

/-- The size of a number in the interval of a double. -/
theorem Binary.Holds.size {b : Binary} {v : ℚ} (h : b.Holds v) (low : 2 ^ 52 ≤ b.mantissa)
    (high : b.mantissa < 2 ^ 53) : (2 : ℚ) ^ (b.exponent + 51) < v ∧ v < 2 ^ (b.exponent + 53) := by
  obtain ⟨atLeast, atMost⟩ := h.bounds
  have unit : (0 : ℚ) < 2 ^ (b.exponent - 2) := by positivity
  have lower : ((2 ^ 53 : ℕ) : ℚ) < b.lower := by
    have := b.le_lower
    exact Nat.cast_lt.2 (by omega)
  have upper : (b.upper : ℚ) < (2 ^ 55 : ℕ) := by
    apply Nat.cast_lt.2
    unfold Binary.upper Binary.value
    omega
  push_cast at lower upper
  constructor
  · have split : b.exponent + 51 = 53 + (b.exponent - 2) := by ring
    rw [split, zpow_add₀ two_ne_zero]
    have := mul_lt_mul_of_pos_right lower unit
    norm_num at this ⊢
    linarith
  · have split : b.exponent + 53 = 55 + (b.exponent - 2) := by ring
    rw [split, zpow_add₀ two_ne_zero]
    have := mul_lt_mul_of_pos_right upper unit
    norm_num at this ⊢
    linarith

/-- A number in the interval of a double has its own last place there or, just below a power of two, one further
down. -/
theorem place_of_holds {b : Binary} {z : ℚ} {t : ℤ} (h : b.Holds (z * 2 ^ t)) (low : 2 ^ 52 ≤ b.mantissa)
    (high : b.mantissa < 2 ^ 53) (zLow : 2 ^ 52 ≤ z) (zHigh : z < 2 ^ 53) : t = b.exponent ∨ t = b.exponent - 1 := by
  obtain ⟨atLeast, atMost⟩ := h.size low high
  have unit : (0 : ℚ) < 2 ^ t := by positivity
  have above : (2 : ℚ) ^ (b.exponent + 51) < 2 ^ (53 + t) := by
    calc (2 : ℚ) ^ (b.exponent + 51) < z * 2 ^ t := atLeast
      _ < 2 ^ 53 * 2 ^ t := mul_lt_mul_of_pos_right zHigh unit
      _ = 2 ^ (53 + t) := (zpow_add₀ two_ne_zero 53 t).symm
  have below : (2 : ℚ) ^ (52 + t) < 2 ^ (b.exponent + 53) := by
    calc (2 : ℚ) ^ (52 + t) = 2 ^ 52 * 2 ^ t := zpow_add₀ two_ne_zero 52 t
      _ ≤ z * 2 ^ t := mul_le_mul_of_nonneg_right zLow unit.le
      _ < 2 ^ (b.exponent + 53) := atMost
  have := (zpow_lt_zpow_iff_right₀ one_lt_two).1 above
  have := (zpow_lt_zpow_iff_right₀ one_lt_two).1 below
  omega

/-- In units of its own last place a number has a whole part of full length. -/
theorem scaled_bounds {m n : ℕ} {accuracy : Accuracy} {y : ℚ}
    (describes : Describes (.ofMantissaAndAccuracy m accuracy) y) (low : 2 ^ (52 + n) ≤ m)
    (high : m < 2 ^ (53 + n)) : 2 ^ 52 ≤ y / 2 ^ n ∧ y / 2 ^ n < 2 ^ 53 := by
  obtain ⟨atLeast, lessThan⟩ := describes.bounds
  rw [mantissa_ofMantissaAndAccuracy] at atLeast lessThan
  have unit : (0 : ℚ) < 2 ^ n := by positivity
  have low : ((2 ^ (52 + n) : ℕ) : ℚ) ≤ m := Nat.cast_le.2 low
  have high : ((m + 1 : ℕ) : ℚ) ≤ (2 ^ (53 + n) : ℕ) := Nat.cast_le.2 high
  push_cast at low high
  rw [pow_add] at low high
  rw [le_div_iff₀ unit, div_lt_iff₀ unit]
  constructor <;> linarith

/-- Rounding finds the double in whose interval a number is, if it is described with enough bits. -/
theorem roundWithAccuracy_eq {b : Binary} (ordinary : b.Ordinary) {m : ℕ} {e : ℤ} {accuracy : Accuracy} {y : ℚ}
    (describes : Describes (.ofMantissaAndAccuracy m accuracy) y) (enough : 2 ^ 52 ≤ m) (holds : b.Holds (y * 2 ^ e))
    (sign : Sign) : ∃ some_bit, roundWithAccuracy Format.binary64 sign m e accuracy =
      .finite sign b.mantissa b.exponent some_bit := by
  obtain ⟨low, high, narrow, least, -⟩ := ordinary
  obtain ⟨n, size⟩ : ∃ n, m.log2 = 52 + n := Nat.exists_eq_add_of_le ((Nat.le_log2 (by omega)).2 enough)
  obtain ⟨mLow, mHigh⟩ := (Nat.log2_eq_iff (by omega)).1 size
  rw [Nat.add_right_comm] at mHigh
  -- The first shift leaves the number in units of its own last place.
  obtain ⟨zLow, zHigh⟩ := scaled_bounds describes mLow mHigh
  have value : y * 2 ^ e = y / 2 ^ n * 2 ^ (e + n) := by
    rw [zpow_add₀ two_ne_zero, zpow_natCast]
    field_simp
  rw [value] at holds
  have place : e + n = b.exponent ∨ e + n = b.exponent - 1 := place_of_holds holds low high zLow zHigh
  have amount : (Format.binary64.targetExponent (totalExponent m e) - e).toNat = n := by
    rw [targetExponent_eq, totalExponent, size]
    omega
  have first : shiftToTargetExponent Format.binary64 m e accuracy =
      (ExtendedMantissa.ofMantissaAndAccuracy m accuracy >>> n, e + n) := by
    rw [shiftToTargetExponent, shiftToExponent, amount]
  have shifted := describes_shiftRight describes n
  have some_bit : b.mantissa ≠ 0 := by omega
  refine ⟨by omega, ?_⟩
  rw [roundWithAccuracy, first]
  dsimp only
  cases place with
  | inl same =>
      rw [same] at holds
      rw [roundedMantissa_eq shifted holds.roundsTo, same, shiftToTargetExponent_full low high least]
      exact dif_neg some_bit
  | inr below =>
      rw [below] at holds
      obtain ⟨power, rounds⟩ := holds.carries low narrow zHigh
      rw [roundedMantissa_eq shifted rounds, below, shiftToTargetExponent_carry least]
      simp only [power]
      exact dif_neg (by norm_num)

/-! ## Division -/

theorem describes_accuracyOfFraction (q : ℕ) {r d : ℕ} (h : r < d) :
    Describes (.ofMantissaAndAccuracy q (accuracyOfFraction r d)) (q + r / d) := by
  have some_part : (0 : ℚ) < d := by exact_mod_cast Nat.zero_lt_of_lt h
  have less : (r : ℚ) < d := Nat.cast_lt.2 h
  unfold accuracyOfFraction
  split
  · next zero => simp [Describes, Rest, ExtendedMantissa.ofMantissaAndAccuracy, zero]
  · next positive =>
      have positive : (0 : ℚ) < r := by exact_mod_cast Nat.pos_of_ne_zero positive
      cases order : compare (2 * r) d with
      | lt =>
          have half : ((2 * r : ℕ) : ℚ) < d := Nat.cast_lt.2 (Nat.compare_eq_lt.1 order)
          push_cast at half
          simp only [Describes, Rest, ExtendedMantissa.ofMantissaAndAccuracy, add_sub_cancel_left]
          constructor
          · positivity
          · rw [div_lt_div_iff₀ some_part two_pos]
            linarith
      | eq =>
          have half : ((2 * r : ℕ) : ℚ) = d := congrArg Nat.cast (Nat.compare_eq_eq.1 order)
          push_cast at half
          simp only [Describes, Rest, ExtendedMantissa.ofMantissaAndAccuracy, add_sub_cancel_left]
          rw [div_eq_div_iff some_part.ne' two_ne_zero]
          linarith
      | gt =>
          have half : (d : ℚ) < (2 * r : ℕ) := Nat.cast_lt.2 (Nat.compare_eq_gt.1 order)
          push_cast at half
          simp only [Describes, Rest, ExtendedMantissa.ofMantissaAndAccuracy, add_sub_cancel_left]
          constructor
          · rw [div_lt_div_iff₀ two_pos some_part]
            linarith
          · rw [div_lt_one some_part]
            exact less

/-- The bounds of a natural number by its length, between which reals can be compared. -/
theorem cast_log2_bounds {m : ℕ} (some_bit : 0 < m) : (2 : ℚ) ^ (m.log2 : ℤ) ≤ m ∧ (m : ℚ) < 2 ^ (m.log2 + 1 : ℤ) := by
  obtain ⟨low, high⟩ := (Nat.log2_eq_iff some_bit.ne').1 rfl
  constructor
  · have : ((2 ^ m.log2 : ℕ) : ℚ) ≤ m := Nat.cast_le.2 low
    rw [zpow_natCast]
    exact_mod_cast this
  · have : (m : ℚ) < (2 ^ (m.log2 + 1) : ℕ) := Nat.cast_lt.2 high
    exact_mod_cast this

/-- The size of a quotient by the lengths of its parts. -/
theorem quotient_lt {m m' : ℕ} (h : 0 < m) (h' : 0 < m') (e e' : ℤ) :
    (m * 2 ^ e / (m' * 2 ^ e') : ℚ) < 2 ^ ((m.log2 + 1 : ℤ) + e - (m'.log2 + e')) := by
  have unit : (0 : ℚ) < 2 ^ e := by positivity
  have unit' : (0 : ℚ) < 2 ^ e' := by positivity
  have high := mul_lt_mul_of_pos_right (cast_log2_bounds h).2 unit
  have low := mul_le_mul_of_nonneg_right (cast_log2_bounds h').1 unit'.le
  rw [← zpow_add₀ two_ne_zero] at high low
  rw [zpow_sub₀ two_ne_zero]
  exact div_lt_div₀ high low (by positivity) (by positivity)

/-- With enough bits shifted in, a whole quotient is as long as a mantissa. -/
theorem le_shifted_div {m m' s : ℕ} (h : 0 < m) (h' : 0 < m') (bits : m'.log2 + 53 ≤ m.log2 + s) :
    2 ^ 52 ≤ m <<< s / m' := by
  rw [Nat.le_div_iff_mul_le h', Nat.shiftLeft_eq]
  calc 2 ^ 52 * m' ≤ 2 ^ 52 * 2 ^ (m'.log2 + 1) := Nat.mul_le_mul_left _ Nat.lt_log2_self.le
    _ = 2 ^ (m'.log2 + 53) := by ring
    _ ≤ 2 ^ (m.log2 + s) := Nat.pow_le_pow_right two_pos bits
    _ = 2 ^ m.log2 * 2 ^ s := pow_add 2 _ _
    _ ≤ m * 2 ^ s := Nat.mul_le_mul_right _ (Nat.log2_self_le h.ne')

/-- The whole quotient and the rest make up the quotient. -/
theorem shifted_div_add (m : ℕ) {m' : ℕ} (h' : 0 < m') (s : ℕ) :
    ((m <<< s / m' : ℕ) + (m <<< s % m' : ℕ) / m' : ℚ) = m * 2 ^ s / m' := by
  have some_part : (m' : ℚ) ≠ 0 := by exact_mod_cast h'.ne'
  have parts : ((m' * (m <<< s / m') + m <<< s % m' : ℕ) : ℚ) = (m * 2 ^ s : ℕ) := by
    rw [Nat.div_add_mod, Nat.shiftLeft_eq]
  push_cast at parts
  rw [eq_div_iff some_part, add_mul, div_mul_cancel₀ _ some_part]
  linarith

/-- Division finds the double in whose interval a quotient is. -/
theorem div_eq {b : Binary} (ordinary : b.Ordinary) {m m' : ℕ} {e e' : ℤ} (h : 0 < m) (h' : 0 < m')
    (holds : b.Holds (m * 2 ^ e / (m' * 2 ^ e'))) :
    ∃ some_bit, UnpackedFloat.div Format.binary64 (.finite .positive m e h) (.finite .positive m' e' h') =
      .finite .positive b.mantissa b.exponent some_bit := by
  obtain ⟨t, target⟩ : ∃ t, t = min (e - e') (Format.binary64.targetExponent
    (totalExponent m e - totalExponent m' e')) := ⟨_, rfl⟩
  obtain ⟨s, amount⟩ : ∃ s, s = (e - e' - t).toNat := ⟨_, rfl⟩
  have split : t = e - e' - s := by omega
  have size : b.exponent + 51 < m.log2 + 1 + e - (m'.log2 + e') := by
    have less := (holds.size ordinary.low ordinary.high).1.trans (quotient_lt h h' e e')
    have := (zpow_lt_zpow_iff_right₀ one_lt_two).1 less
    omega
  have bits : m'.log2 + 53 ≤ m.log2 + s := by
    have := ordinary.least
    rw [targetExponent_eq, totalExponent, totalExponent] at target
    omega
  have enough := le_shifted_div h h' bits
  have value : ((m <<< s / m' : ℕ) + (m <<< s % m' : ℕ) / m' : ℚ) * 2 ^ t = m * 2 ^ e / (m' * 2 ^ e') := by
    rw [shifted_div_add m h' s, split, zpow_sub₀ two_ne_zero, zpow_sub₀ two_ne_zero, zpow_natCast]
    field_simp
  have core : divCore Format.binary64 m e m' e' = (m <<< s / m', t, accuracyOfFraction (m <<< s % m') m') := by
    rw [divCore, ← target, ← amount]
  rw [← value] at holds
  have described := describes_accuracyOfFraction (m <<< s / m') (Nat.mod_lt (m <<< s) h')
  obtain ⟨some_bit, rounded⟩ := roundWithAccuracy_eq ordinary described enough holds .positive
  refine ⟨some_bit, ?_⟩
  rw [UnpackedFloat.div, core]
  exact rounded

end Number

end LoxScript
