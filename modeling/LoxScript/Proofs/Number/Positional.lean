import LoxScript.Proofs.Number.Layout
import LoxScript.Proofs.Number.Shortest

/-!
# Numbers that are written as numerals

The doubles from the one nearest to `0.0001` up to below `10 ^ 16` are those that are written without an exponent, and
what is written for them is a numeral that is read as the same double.
-/

namespace LoxScript

namespace Number

open Float.Model Float.Model.UnpackedFloat

namespace Binary

variable {b : Binary} {v : ℚ}

def UnderLimit (b : Binary) : Prop :=
  b.exponent < 1 ∨ b.exponent = 1 ∧ b.mantissa < 5000000000000000

/-- The doubles from that nearest to `0.0001` on. -/
def FromLowest (b : Binary) : Prop :=
  -66 < b.exponent ∨ b.exponent = -66 ∧ 7378697629483821 ≤ b.mantissa

theorem holds_le (h : b.Holds v) {n : ℕ} {t : ℤ} (bound : b.upper ≤ n) (place : b.exponent - 2 ≤ t) :
    v ≤ n * 2 ^ t := by
  have unit : (0 : ℚ) < 2 ^ t := by positivity
  calc v ≤ b.upper * 2 ^ (b.exponent - 2) := h.bounds.2
    _ ≤ b.upper * 2 ^ t := mul_le_mul_of_nonneg_left (zpow_le_zpow_right₀ one_le_two place) (Nat.cast_nonneg _)
    _ ≤ n * 2 ^ t := mul_le_mul_of_nonneg_right (Nat.cast_le.2 bound) unit.le

theorem le_holds (h : b.Holds v) {n : ℕ} {t : ℤ} (bound : n ≤ b.lower) (place : t ≤ b.exponent - 2) :
    n * 2 ^ t ≤ v := by
  have unit : (0 : ℚ) < 2 ^ t := by positivity
  calc (n * 2 ^ t : ℚ) ≤ b.lower * 2 ^ t := mul_le_mul_of_nonneg_right (Nat.cast_le.2 bound) unit.le
    _ ≤ b.lower * 2 ^ (b.exponent - 2) :=
        mul_le_mul_of_nonneg_left (zpow_le_zpow_right₀ one_le_two place) (Nat.cast_nonneg _)
    _ ≤ v := h.bounds.1

theorem lt_of_underLimit (proper : b.Proper) (below : b.UnderLimit) (h : b.Holds v) : v < 10 ^ 16 := by
  have high := proper.high
  cases below with
  | inl small =>
      have bound : b.upper ≤ 2 ^ 55 - 2 := by
        unfold upper value
        omega
      have less := holds_le h bound (t := -2) (by omega)
      norm_num at less
      linarith
  | inr equal =>
      obtain ⟨exponent, mantissa⟩ := equal
      have bound : b.upper ≤ 19999999999999998 := by
        unfold upper value
        omega
      have less := holds_le h bound (t := -1) (by omega)
      norm_num at less
      linarith

theorem lt_of_not_fromLowest (proper : b.Proper) (small : ¬ b.FromLowest) (h : b.Holds v) : v < 1 / 10 ^ 4 := by
  have high := proper.high
  unfold FromLowest at small
  by_cases equal : b.exponent = -66
  · have bound : b.upper ≤ 29514790517935282 := by
      unfold upper value
      omega
    have less := holds_le h bound (t := -68) (by omega)
    norm_num at less
    linarith
  · have bound : b.upper ≤ 2 ^ 55 - 2 := by
      unfold upper value
      omega
    have less := holds_le h bound (t := -69) (by omega)
    norm_num at less
    linarith

theorem le_of_not_underLimit (proper : b.Proper) (large : ¬ b.UnderLimit) :
    10 ^ 16 ≤ (b.shortest.digits * 10 ^ b.shortest.exponent : ℚ) := by
  have h := holds_shortest proper
  have lower := le_lower b
  obtain ⟨low, narrow⟩ := proper.normal (by unfold UnderLimit at large; omega)
  unfold UnderLimit at large
  by_cases equal : b.exponent = 1
  · by_cases exactly : b.mantissa = 5000000000000000
    · have limit : b = ⟨5000000000000000, 1, false⟩ := by
        rw [exactly] at narrow
        cases b
        rw [Binary.mk.injEq]
        exact ⟨exactly, equal, narrow⟩
      have shortest : (⟨5000000000000000, 1, false⟩ : Binary).shortest = ⟨1, 16⟩ := by decide +kernel
      rw [limit, shortest]
      norm_num
    · have bound : 20000000000000002 ≤ b.lower := by omega
      have more := le_holds h bound (t := -1) (by omega)
      norm_num at more
      linarith
  · have bound : 2 ^ 54 - 2 ≤ b.lower := by omega
    have more := le_holds h bound (t := 0) (by omega)
    norm_num at more
    linarith

theorem le_of_fromLowest (proper : b.Proper) (above : b.FromLowest) :
    1 / 10 ^ 4 ≤ (b.shortest.digits * 10 ^ b.shortest.exponent : ℚ) := by
  have h := holds_shortest proper
  have lower := le_lower b
  obtain ⟨low, narrow⟩ := proper.normal (by unfold FromLowest at above; omega)
  unfold FromLowest at above
  by_cases equal : b.exponent = -66
  · by_cases exactly : b.mantissa = 7378697629483821
    · have limit : b = ⟨7378697629483821, -66, false⟩ := by
        rw [exactly] at narrow
        cases b
        rw [Binary.mk.injEq]
        exact ⟨exactly, equal, narrow⟩
      have shortest : (⟨7378697629483821, -66, false⟩ : Binary).shortest = ⟨1, -4⟩ := by decide +kernel
      rw [limit, shortest]
      norm_num
    · have bound : 29514790517935286 ≤ b.lower := by omega
      have more := le_holds h bound (t := -68) (by omega)
      norm_num at more
      linarith
  · have bound : 2 ^ 54 - 2 ≤ b.lower := by omega
    have more := le_holds h bound (t := -67) (by omega)
    norm_num at more
    linarith

theorem digits_pos (proper : b.Proper) : 0 < b.shortest.digits := by
  have some_bit := proper.some_bit
  have lower := le_lower b
  apply Nat.pos_of_ne_zero
  intro none_left
  have bound := (holds_shortest proper).bounds.1
  have unit : (0 : ℚ) < 2 ^ (b.exponent - 2) := by positivity
  have positive : (0 : ℚ) < b.lower := Nat.cast_pos.2 (by omega)
  rw [none_left, Nat.cast_zero, zero_mul] at bound
  exact absurd bound (not_le.2 (mul_pos positive unit))

/-- Which doubles are written without an exponent. -/
theorem magnitude_shortest (proper : b.Proper) :
    (-4 ≤ b.shortest.magnitude ∧ b.shortest.magnitude < 16) ↔ b.FromLowest ∧ b.UnderLimit := by
  have h := holds_shortest proper
  obtain ⟨low, high⟩ := Decimal.magnitude_bounds (digits_pos proper)
  have ten : (1 : ℚ) < 10 := by norm_num
  have four : (1 / 10 ^ 4 : ℚ) = 10 ^ (-4 : ℤ) := by norm_num
  have sixteen : (10 ^ 16 : ℚ) = 10 ^ (16 : ℤ) := by norm_num
  constructor
  · intro inside
    obtain ⟨atLeast, less⟩ := inside
    constructor
    · by_contra small
      have below := lt_of_not_fromLowest proper small h
      rw [four] at below
      have := (zpow_lt_zpow_iff_right₀ ten).1 (low.trans_lt below)
      omega
    · by_contra large
      have above := le_of_not_underLimit proper large
      rw [sixteen] at above
      have := (zpow_lt_zpow_iff_right₀ ten).1 (above.trans_lt high)
      omega
  · intro inside
    obtain ⟨above, below⟩ := inside
    constructor
    · have atLeast := le_of_fromLowest proper above
      rw [four] at atLeast
      have := (zpow_lt_zpow_iff_right₀ ten).1 (atLeast.trans_lt high)
      omega
    · have less := lt_of_underLimit proper below h
      rw [sixteen] at less
      have := (zpow_lt_zpow_iff_right₀ ten).1 (low.trans_lt less)
      omega

end Binary

/-! ## Comparisons of doubles -/

theorem float_le_iff {x y : Float} : x ≤ y ↔ UnpackedFloat.le x.toModel.unpack y.toModel.unpack = true :=
  decide_eq_true_iff

theorem float_lt_iff {x y : Float} : x < y ↔ UnpackedFloat.lt x.toModel.unpack y.toModel.unpack = true :=
  decide_eq_true_iff

section Finite

variable {x y : Float} {b b' : Binary}

theorem unpack_of_finite (form : Form.ofFloat x = .finite false b) : ∃ some_bit,
    x.toModel.unpack = .finite .positive b.mantissa b.exponent some_bit := by
  have describes := Form.ofFloat_describes x
  rw [form] at describes
  exact describes

/-- Positive doubles are ordered by their exponents, and by their mantissas where these are equal. -/
theorem float_le_iff_of_finite (form : Form.ofFloat x = .finite false b) (form' : Form.ofFloat y = .finite false b') :
    x ≤ y ↔ b.exponent < b'.exponent ∨ b.exponent = b'.exponent ∧ b.mantissa ≤ b'.mantissa := by
  obtain ⟨some_bit, unpacked⟩ := unpack_of_finite form
  obtain ⟨some_bit', unpacked'⟩ := unpack_of_finite form'
  rw [float_le_iff, unpacked, unpacked']
  show ((compare b.exponent b'.exponent).then (compare b.mantissa b'.mantissa)).isLE = true ↔ _
  rw [Ordering.isLE_then_iff_or, Int.compare_eq_lt, Int.compare_eq_eq, Nat.isLE_compare]

theorem float_lt_iff_of_finite (form : Form.ofFloat x = .finite false b) (form' : Form.ofFloat y = .finite false b') :
    x < y ↔ b.exponent < b'.exponent ∨ b.exponent = b'.exponent ∧ b.mantissa < b'.mantissa := by
  obtain ⟨some_bit, unpacked⟩ := unpack_of_finite form
  obtain ⟨some_bit', unpacked'⟩ := unpack_of_finite form'
  rw [float_lt_iff, unpacked, unpacked']
  show (some ((compare b.exponent b'.exponent).then (compare b.mantissa b'.mantissa)) == some .lt) = true ↔ _
  rw [beq_iff_eq, Option.some.injEq, Ordering.then_eq_lt, Int.compare_eq_lt, Int.compare_eq_eq, Nat.compare_eq_lt]

theorem le_iff_fromLowest (form : Form.ofFloat x = .finite false b) : 0.0001 ≤ x ↔ b.FromLowest := by
  have limit : Form.ofFloat 0.0001 = .finite false ⟨7378697629483821, -66, false⟩ := by decide +kernel
  rw [float_le_iff_of_finite limit form, Binary.FromLowest, eq_comm (a := (-66 : ℤ))]

theorem lt_iff_underLimit (form : Form.ofFloat x = .finite false b) : x < 1e16 ↔ b.UnderLimit := by
  have limit : Form.ofFloat 1e16 = .finite false ⟨5000000000000000, 1, false⟩ := by decide +kernel
  rw [float_lt_iff_of_finite form limit, Binary.UnderLimit]

/-! ## Written doubles -/

theorem plainText_of_finite (form : Form.ofFloat x = .finite false b) :
    plainText x = .ofList (Layout.plain.decimal b.shortest) := by
  unfold plainText Layout.render
  rw [form]
  rfl

/-- Doubles of this range are written as numerals that are read as the same doubles. -/
theorem plainText_positional (form : Form.ofFloat x = .finite false b) (low : 0.0001 ≤ x) (high : x < 1e16) :
    ∃ n : Numeral, plainText x = .ofList n.text ∧ n.read = x := by
  have proper := proper_of_finite form
  have atLeast := (le_iff_fromLowest form).1 low
  have less := (lt_iff_underLimit form).1 high
  have ordinary : b.Ordinary := by
    apply proper.ordinary
    · unfold Binary.FromLowest at atLeast
      omega
    · unfold Binary.UnderLimit at less
      omega
  obtain ⟨low, high⟩ := (Binary.magnitude_shortest proper).2 ⟨atLeast, less⟩
  obtain ⟨n, text, value⟩ := decimal_positional (Binary.digits_pos proper) low high
  refine ⟨n, ?_, ?_⟩
  · rw [plainText_of_finite form, text]
  · apply n.read_eq form ordinary
    rw [value]
    exact Binary.holds_shortest proper

/-- All other positive doubles are written with an exponent behind a numeral. -/
theorem plainText_scientific (form : Form.ofFloat x = .finite false b) (outside : ¬ (0.0001 ≤ x ∧ x < 1e16)) :
    ∃ (n : Numeral) (tail : List Char), plainText x = .ofList (n.text ++ 'e' :: tail) := by
  have proper := proper_of_finite form
  rw [le_iff_fromLowest form, lt_iff_underLimit form, ← Binary.magnitude_shortest proper] at outside
  obtain ⟨n, tail, text⟩ := decimal_scientific (Binary.digits_pos proper) outside
  refine ⟨n, tail, ?_⟩
  rw [plainText_of_finite form, text]

end Finite

theorem plainText_of_zero {x : Float} (form : Form.ofFloat x = .zero false) : plainText x = .ofList ['0'] := by
  unfold plainText Layout.render
  rw [form]
  rfl

end Number

end LoxScript
