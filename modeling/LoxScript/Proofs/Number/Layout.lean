import LoxScript.Proofs.Number.Numeral

/-!
# The value of written digits

Positional notation writes a decimal as a numeral with the same value, and scientific notation as a numeral with
something behind it that is no part of one.
-/

namespace LoxScript

namespace Number

/-! ## Digits -/

theorem digitsValue_eq (digits : List Char) : digitsValue digits = Nat.ofDigitChars 10 digits 0 := rfl

theorem digitsValue_append_zeros (digits : List Char) (z : ℕ) :
    digitsValue (digits ++ List.replicate z '0') = digitsValue digits * 10 ^ z := by
  rw [digitsValue_eq, Nat.ofDigitChars_append, Nat.ofDigitChars_replicate_zero, mul_comm]
  rfl

theorem digitsValue_zeros_append (digits : List Char) (z : ℕ) :
    digitsValue (List.replicate z '0' ++ digits) = digitsValue digits := by
  rw [digitsValue_eq, Nat.ofDigitChars_append, Nat.ofDigitChars_replicate_zero, mul_zero]
  rfl

theorem isDigit_decimalDigits {n : ℕ} : ∀ c ∈ decimalDigits n, isDigit c = true := by
  intro c mem
  exact Nat.isDigit_of_mem_toDigits (by decide) (by decide) mem

theorem isDigit_replicate (z : ℕ) : ∀ c ∈ List.replicate z '0', isDigit c = true := by
  intro c mem
  rw [List.eq_of_mem_replicate mem]
  rfl

theorem exists_zeros (digits : List Char) : ∃ z, digits = dropTrailingZeros digits ++ List.replicate z '0' := by
  have zeros : digits.reverse.takeWhile (· == '0') =
      List.replicate (digits.reverse.takeWhile (· == '0')).length '0' := by
    apply List.eq_replicate_of_mem
    intro c mem
    exact beq_iff_eq.1 (List.all_eq_true.1 List.all_takeWhile c mem)
  have split := List.takeWhile_append_dropWhile (p := (· == '0')) (l := digits.reverse)
  refine ⟨(digits.reverse.takeWhile (· == '0')).length, ?_⟩
  rw [dropTrailingZeros, ← List.reverse_replicate, ← zeros, ← List.reverse_append, split, List.reverse_reverse]

/-- The digits of a positive number without the zeros at their end. -/
theorem dropTrailingZeros_decimalDigits {n : ℕ} (some_left : 0 < n) : ∃ z,
    n = digitsValue (dropTrailingZeros (decimalDigits n)) * 10 ^ z ∧
      (decimalDigits n).length = (dropTrailingZeros (decimalDigits n)).length + z ∧
      (∀ c ∈ dropTrailingZeros (decimalDigits n), isDigit c = true) ∧ dropTrailingZeros (decimalDigits n) ≠ [] := by
  obtain ⟨z, split⟩ := exists_zeros (decimalDigits n)
  have value : digitsValue (decimalDigits n) = n := Nat.ofDigitChars_ten_toDigits
  have product : n = digitsValue (dropTrailingZeros (decimalDigits n)) * 10 ^ z := by
    rw [← digitsValue_append_zeros, ← split, value]
  refine ⟨z, product, ?_, ?_, ?_⟩
  · have lengths := congrArg List.length split
    rwa [List.length_append, List.length_replicate] at lengths
  · intro c mem
    apply isDigit_decimalDigits (n := n) c
    rw [split]
    exact List.mem_append_left _ mem
  · intro empty
    rw [empty] at product
    have zero : digitsValue [] = 0 := rfl
    rw [zero, zero_mul] at product
    omega

/-- The number of digits says how large a number is. -/
theorem length_decimalDigits_bounds {n : ℕ} (some_left : 0 < n) :
    10 ^ ((decimalDigits n).length - 1) ≤ n ∧ n < 10 ^ (decimalDigits n).length := by
  have some_digit : 0 < (decimalDigits n).length := Nat.length_toDigits_pos
  constructor
  · by_cases single : (decimalDigits n).length = 1
    · rw [single]
      exact some_left
    · have fewer := mt (Nat.length_toDigits_le_iff (n := n) (by norm_num) (by omega)).2
        (show ¬ (Nat.toDigits 10 n).length ≤ (decimalDigits n).length - 1 by
          have same : (Nat.toDigits 10 n).length = (decimalDigits n).length := rfl
          omega)
      exact not_lt.1 fewer
  · exact (Nat.length_toDigits_le_iff (by norm_num) some_digit).1 (le_refl _)

/-! ## Positional notation -/

theorem div_pow_eq (a q l : ℕ) : ((a * 10 ^ q : ℕ) / 10 ^ l : ℚ) = a * 10 ^ (q - l : ℤ) := by
  rw [zpow_sub₀ (by norm_num), zpow_natCast, zpow_natCast]
  push_cast
  ring

section Place

variable {digits : List Char} (plain : ∀ c ∈ digits, isDigit c = true) (some_digit : digits ≠ []) {e : ℤ}

include plain some_digit

/-- Digits behind the point and some zeros. -/
theorem exists_numeral_below (low : e < 0) : ∃ n : Numeral,
    ['0', '.'] ++ List.replicate ((-e).toNat - 1) '0' ++ digits = n.text ∧
      n.value = digitsValue digits * 10 ^ (e + 1 - digits.length) := by
  have some_left : List.replicate ((-e).toNat - 1) '0' ++ digits ≠ [] := List.append_ne_nil_of_right_ne_nil _ some_digit
  have all : ∀ c ∈ List.replicate ((-e).toNat - 1) '0' ++ digits, isDigit c = true :=
    List.forall_mem_append.2 ⟨isDigit_replicate _, plain⟩
  refine ⟨⟨['0'], _, List.cons_ne_nil _ _, isDigit_replicate 1, all⟩, ?_, ?_⟩
  · rw [Numeral.text_of_ne_nil some_left]
    exact List.append_assoc _ _ _
  · have value : digitsValue (['0'] ++ (List.replicate ((-e).toNat - 1) '0' ++ digits)) =
        digitsValue digits * 10 ^ 0 := by
      rw [← List.append_assoc, pow_zero, mul_one]
      exact digitsValue_zeros_append digits ((-e).toNat - 1 + 1)
    unfold Numeral.value
    rw [value, div_pow_eq, List.length_append, List.length_replicate]
    congr 2
    omega

/-- A whole number, filled up with zeros. -/
theorem exists_numeral_whole (high : 0 ≤ e) (short : digits.length ≤ e.toNat + 1) : ∃ n : Numeral,
    digits ++ List.replicate (e.toNat + 1 - digits.length) '0' = n.text ∧
      n.value = digitsValue digits * 10 ^ (e + 1 - digits.length) := by
  have all : ∀ c ∈ digits ++ List.replicate (e.toNat + 1 - digits.length) '0', isDigit c = true :=
    List.forall_mem_append.2 ⟨plain, isDigit_replicate _⟩
  refine ⟨⟨_, [], List.append_ne_nil_of_left_ne_nil some_digit _, all, nofun⟩, rfl, ?_⟩
  unfold Numeral.value
  rw [List.append_nil, digitsValue_append_zeros, div_pow_eq]
  congr 2
  show ((e.toNat + 1 - digits.length : ℕ) : ℤ) - (0 : ℕ) = _
  omega

omit some_digit in
/-- Digits with the point among them. -/
theorem exists_numeral_among (high : 0 ≤ e) (long : e.toNat + 1 < digits.length) : ∃ n : Numeral,
    digits.take (e.toNat + 1) ++ '.' :: digits.drop (e.toNat + 1) = n.text ∧
      n.value = digitsValue digits * 10 ^ (e + 1 - digits.length) := by
  have some_left : digits.drop (e.toNat + 1) ≠ [] := by
    apply List.ne_nil_of_length_pos
    rw [List.length_drop]
    omega
  have some_digit : digits.take (e.toNat + 1) ≠ [] := by
    apply List.ne_nil_of_length_pos
    rw [List.length_take]
    omega
  have all : ∀ c ∈ digits.take (e.toNat + 1), isDigit c = true := fun c mem => plain c (List.mem_of_mem_take mem)
  have all' : ∀ c ∈ digits.drop (e.toNat + 1), isDigit c = true := fun c mem => plain c (List.mem_of_mem_drop mem)
  let n : Numeral := ⟨_, _, some_digit, all, all'⟩
  have text : n.text = digits.take (e.toNat + 1) ++ '.' :: digits.drop (e.toNat + 1) :=
    Numeral.text_of_ne_nil some_left
  refine ⟨n, text.symm, ?_⟩
  have value : digitsValue digits = digitsValue digits * 10 ^ 0 := (mul_one _).symm
  unfold Numeral.value
  rw [List.take_append_drop]
  nth_rewrite 1 [value]
  rw [div_pow_eq, List.length_drop]
  congr 2
  omega

/-- Digits of which the first stands for `10 ^ e` are written positionally as a numeral with their value. -/
theorem place_positional (low : -4 ≤ e) (high : e < 16) : ∃ n : Numeral, Layout.plain.place digits e = n.text ∧
    n.value = digitsValue digits * 10 ^ (e + 1 - digits.length) := by
  have positional : Layout.plain.lowest ≤ e ∧ e < Layout.plain.limit := ⟨low, high⟩
  unfold Layout.place
  rw [if_pos positional]
  by_cases below : e < 0
  · rw [if_pos below]
    exact exists_numeral_below plain some_digit below
  · rw [if_neg below]
    dsimp only
    by_cases short : digits.length ≤ e.toNat + 1
    · rw [if_pos short, Layout.plain, List.append_nil]
      exact exists_numeral_whole plain some_digit (not_lt.1 below) short
    · rw [if_neg short]
      exact exists_numeral_among plain (not_lt.1 below) (not_le.1 short)

/-- Other digits are written scientifically, as a numeral with an exponent behind it. -/
theorem place_scientific (outside : ¬ (-4 ≤ e ∧ e < 16)) : ∃ (n : Numeral) (tail : List Char),
    Layout.plain.place digits e = n.text ++ 'e' :: tail := by
  have scientific : ¬ (Layout.plain.lowest ≤ e ∧ e < Layout.plain.limit) := outside
  unfold Layout.place
  rw [if_neg scientific]
  cases digits with
  | nil => exact absurd rfl some_digit
  | cons c rest =>
      obtain ⟨digit, digits⟩ := List.forall_mem_cons.1 plain
      let n : Numeral := ⟨[c], rest, List.cons_ne_nil _ _, List.forall_mem_singleton.2 digit, digits⟩
      cases rest with
      | nil => exact ⟨n, _, rfl⟩
      | cons c' rest => exact ⟨n, _, rfl⟩

end Place

/-! ## Decimals -/

def Decimal.magnitude (d : Decimal) : ℤ :=
  d.exponent + (decimalDigits d.digits).length - 1

/-- In the positional range a decimal is written as a numeral with its value. -/
theorem decimal_positional {d : Decimal} (some_left : 0 < d.digits) (low : -4 ≤ d.magnitude) (high : d.magnitude < 16) :
    ∃ n : Numeral, Layout.plain.decimal d = n.text ∧ n.value = d.digits * 10 ^ d.exponent := by
  obtain ⟨z, value, length, plain, some_digit⟩ := dropTrailingZeros_decimalDigits some_left
  obtain ⟨n, text, placed⟩ := place_positional plain some_digit low high
  refine ⟨n, text, placed.trans ?_⟩
  have exponent : d.magnitude + 1 - (dropTrailingZeros (decimalDigits d.digits)).length = z + d.exponent := by
    rw [Decimal.magnitude, length]
    push_cast
    ring
  rw [exponent, zpow_add₀ (by norm_num), ← mul_assoc, zpow_natCast]
  congr 1
  exact_mod_cast value.symm

theorem decimal_scientific {d : Decimal} (some_left : 0 < d.digits)
    (outside : ¬ (-4 ≤ d.magnitude ∧ d.magnitude < 16)) : ∃ (n : Numeral) (tail : List Char),
      Layout.plain.decimal d = n.text ++ 'e' :: tail := by
  obtain ⟨-, -, -, plain, some_digit⟩ := dropTrailingZeros_decimalDigits some_left
  exact place_scientific plain some_digit outside

/-- The exponent of the first digit says how large a decimal is. -/
theorem Decimal.magnitude_bounds {d : Decimal} (some_left : 0 < d.digits) :
    (10 ^ d.magnitude : ℚ) ≤ d.digits * 10 ^ d.exponent ∧
      (d.digits * 10 ^ d.exponent : ℚ) < 10 ^ (d.magnitude + 1) := by
  obtain ⟨low, high⟩ := length_decimalDigits_bounds some_left
  have some_digit : 0 < (decimalDigits d.digits).length := Nat.length_toDigits_pos
  have unit : (0 : ℚ) < 10 ^ d.exponent := by positivity
  have low : ((10 ^ ((decimalDigits d.digits).length - 1) : ℕ) : ℚ) ≤ d.digits := Nat.cast_le.2 low
  have high : (d.digits : ℚ) < (10 ^ (decimalDigits d.digits).length : ℕ) := Nat.cast_lt.2 high
  have split : d.magnitude = ((decimalDigits d.digits).length - 1 : ℕ) + d.exponent := by
    rw [Decimal.magnitude]
    omega
  have split' : d.magnitude + 1 = (decimalDigits d.digits).length + d.exponent := by
    rw [Decimal.magnitude]
    omega
  constructor
  · rw [split, zpow_add₀ (by norm_num), zpow_natCast]
    apply mul_le_mul_of_nonneg_right _ unit.le
    exact_mod_cast low
  · rw [split', zpow_add₀ (by norm_num), zpow_natCast]
    apply mul_lt_mul_of_pos_right _ unit
    exact_mod_cast high

end Number

end LoxScript
