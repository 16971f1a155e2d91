import LoxScript.Proofs.Number.Bits

/-!
# Seventeen digits are enough

On a decimal grid that is fine enough for seventeen digits one of the two neighbours of a double is in its rounding
interval, so the search for the shortest decimal always ends with one that rounds to the double.
-/

namespace LoxScript

namespace Number

/-! ## Counting digits -/

theorem digitCountWithin_eq {bound n : ℕ} (some_left : 0 < n) (enough : n < bound) :
    ∃ j, digitCountWithin bound n = j + 1 ∧ 10 ^ j ≤ n ∧ n < 10 ^ (j + 1) := by
  induction bound generalizing n with
  | zero => exact absurd enough (Nat.not_lt_zero n)
  | succ bound ih =>
      by_cases single : n < 10
      · refine ⟨0, ?_, some_left, single⟩
        rw [digitCountWithin, if_pos single]
      · obtain ⟨j, count, low, high⟩ := ih (n := n / 10) (by omega) (by omega)
        refine ⟨j + 1, ?_, ?_, ?_⟩
        · rw [digitCountWithin, if_neg single, count]
        · rw [pow_succ]
          omega
        · rw [pow_succ]
          omega

theorem digitCount_eq {n : ℕ} (some_left : 0 < n) : ∃ j, digitCount n = j + 1 ∧ 10 ^ j ≤ n ∧ n < 10 ^ (j + 1) :=
  digitCountWithin_eq some_left (Nat.lt_succ_self n)

namespace Binary

variable {b : Binary} {k : ℤ}

/-! ## The grid -/

/-- Both factors bring the grid and the quarter units to one common unit. -/
theorem factors (b : Binary) (k : ℤ) :
    (b.unitFactor k : ℚ) * 10 ^ k = b.gridFactor k * 2 ^ (b.exponent - 2) := by
  have opposite : 2 - b.exponent = -(b.exponent - 2) := by ring
  have units : b.unitFactor k = 2 ^ (b.exponent - 2).toNat * 10 ^ (-k).toNat := rfl
  have grid : b.gridFactor k = 10 ^ k.toNat * 2 ^ (-(b.exponent - 2)).toNat := by
    rw [← opposite]
    rfl
  rw [units, grid, zpow_eq_pow_div (by norm_num : (10 : ℚ) ≠ 0), zpow_eq_pow_div two_ne_zero]
  push_cast
  field_simp

theorem gridFactor_pos (b : Binary) (k : ℤ) : 0 < b.gridFactor k :=
  Nat.mul_pos (Nat.pow_pos (by decide)) (Nat.pow_pos (by decide))

theorem scaled_unit (b : Binary) (k : ℤ) (x : ℕ) :
    (x * b.unitFactor k * 10 ^ k : ℚ) = x * 2 ^ (b.exponent - 2) * b.gridFactor k := by
  rw [mul_assoc, factors, mul_assoc, mul_comm (b.gridFactor k : ℚ)]

theorem le_grid (x d : ℕ) :
    x * b.unitFactor k ≤ d * b.gridFactor k ↔ (x * 2 ^ (b.exponent - 2) : ℚ) ≤ d * 10 ^ k := by
  have grid : (0 : ℚ) < b.gridFactor k := Nat.cast_pos.2 (b.gridFactor_pos k)
  have step : (0 : ℚ) < 10 ^ k := by positivity
  rw [← @Nat.cast_le ℚ, ← mul_le_mul_iff_left₀ step]
  push_cast
  rw [scaled_unit, mul_right_comm (d : ℚ), mul_le_mul_iff_left₀ grid]

theorem grid_le (x d : ℕ) :
    d * b.gridFactor k ≤ x * b.unitFactor k ↔ (d * 10 ^ k : ℚ) ≤ x * 2 ^ (b.exponent - 2) := by
  have grid : (0 : ℚ) < b.gridFactor k := Nat.cast_pos.2 (b.gridFactor_pos k)
  have step : (0 : ℚ) < 10 ^ k := by positivity
  rw [← @Nat.cast_le ℚ, ← mul_le_mul_iff_left₀ step]
  push_cast
  rw [scaled_unit, mul_right_comm (d : ℚ), mul_le_mul_iff_left₀ grid]

/-- The test on natural numbers tells whether a point of the grid is in the interval. -/
theorem contains_iff (d : ℕ) : b.contains k d = true ↔ b.Holds (d * 10 ^ k) := by
  unfold contains Holds
  dsimp only
  split
  · rw [decide_eq_true_eq, le_grid, grid_le]
  · rw [decide_eq_true_eq, ← not_le, ← not_le, grid_le, le_grid, not_le, not_le]

/-- The points of the grid around the double. -/
theorem neighbours (b : Binary) (k : ℤ) :
    ((b.value * b.unitFactor k / b.gridFactor k : ℕ) * 10 ^ k : ℚ) ≤ b.value * 2 ^ (b.exponent - 2) ∧
      (b.value * 2 ^ (b.exponent - 2) : ℚ) < ((b.value * b.unitFactor k / b.gridFactor k : ℕ) + 1) * 10 ^ k := by
  constructor
  · exact (grid_le _ _).1 (Nat.div_mul_le_self _ _)
  · have above := Nat.lt_mul_of_div_lt (Nat.lt_succ_self (b.value * b.unitFactor k / b.gridFactor k))
      (b.gridFactor_pos k)
    rw [← not_le, grid_le, not_le, Nat.cast_succ] at above
    exact above

theorem onGrid?_contains {d : ℕ} (h : b.onGrid? k = some d) : b.contains k d = true := by
  unfold onGrid? at h
  dsimp only at h
  split at h
  · next below above =>
      split at h
      · cases h
        exact below
      · cases h
        exact above
      · cases h
        split
        · exact below
        · exact above
  · next below _ =>
      cases h
      exact below
  · next _ above =>
      cases h
      exact above
  · cases h

/-- Where neither neighbour is in the interval, nothing is found. -/
theorem onGrid?_eq_none (h : b.onGrid? k = none) :
    ¬ b.Holds ((b.value * b.unitFactor k / b.gridFactor k : ℕ) * 10 ^ k) ∧
      ¬ b.Holds ((b.value * b.unitFactor k / b.gridFactor k + 1 : ℕ) * 10 ^ k) := by
  rw [← contains_iff, ← contains_iff]
  unfold onGrid? at h
  dsimp only at h
  split at h
  · split at h <;> cases h
  · cases h
  · cases h
  · next below above =>
      rw [below, above]
      exact ⟨Bool.false_ne_true, Bool.false_ne_true⟩

/-! ## Seventeen digits -/

theorem holds_of_between {w : ℚ} (above : b.lower * 2 ^ (b.exponent - 2) < w)
    (below : w < b.upper * 2 ^ (b.exponent - 2)) : b.Holds w := by
  unfold Holds
  split
  · exact ⟨above.le, below.le⟩
  · exact ⟨above, below⟩

/-- How far the interval reaches below the double, in quarters of the last place. -/
theorem exists_gap (proper : b.Proper) :
    ∃ gap, b.lower + gap = b.value ∧ 0 < gap ∧ b.value < 10 ^ 16 * (gap + 2) := by
  have some_bit := proper.some_bit
  have high := proper.high
  unfold lower value
  split
  · next narrow =>
      have power := proper.narrow narrow
      exact ⟨1, by omega, one_pos, by omega⟩
  · exact ⟨2, by omega, two_pos, by omega⟩

/-- The interval is wider than the steps of a grid with seventeen digits, so it contains a neighbour. -/
theorem onGrid?_isSome (proper : b.Proper) {top : ℤ} (low : (10 : ℚ) ^ top ≤ b.value * 2 ^ (b.exponent - 2)) :
    (b.onGrid? (top - 16)).isSome := by
  by_contra missing
  obtain ⟨outside, outside'⟩ := onGrid?_eq_none (Option.not_isSome_iff_eq_none.1 missing)
  obtain ⟨below, above⟩ := neighbours b (top - 16)
  generalize b.value * b.unitFactor (top - 16) / b.gridFactor (top - 16) = d at *
  push_cast at outside'
  have unit : (0 : ℚ) < 2 ^ (b.exponent - 2) := by positivity
  obtain ⟨gap, lower, some_gap, bound⟩ := exists_gap proper
  have lower : (b.value : ℚ) = b.lower + gap := by exact_mod_cast lower.symm
  have upper : (b.upper : ℚ) = b.value + 2 := by
    rw [Binary.upper, Nat.cast_add, Nat.cast_ofNat]
  have some_gap : (0 : ℚ) < gap := Nat.cast_pos.2 some_gap
  have bound : (b.value : ℚ) < 10 ^ 16 * (gap + 2) := by exact_mod_cast bound
  have seventeen : (10 : ℚ) ^ top = 10 ^ 16 * 10 ^ (top - 16) := by
    rw [zpow_sub₀ (by norm_num)]
    norm_num
    field_simp
  rw [seventeen] at low
  have left : (d * 10 ^ (top - 16) : ℚ) ≤ b.lower * 2 ^ (b.exponent - 2) := by
    by_contra inside
    exact outside (holds_of_between (not_le.1 inside) (by nlinarith))
  have right : (b.upper * 2 ^ (b.exponent - 2) : ℚ) ≤ (d + 1) * 10 ^ (top - 16) := by
    by_contra inside
    exact outside' (holds_of_between (by nlinarith) (not_le.1 inside))
  have step : (gap + 2) * 2 ^ (b.exponent - 2) ≤ (10 : ℚ) ^ (top - 16) := by
    rw [upper, lower] at right
    linarith
  have wide := mul_lt_mul_of_pos_right bound unit
  linarith

/-- No double is below the grid on which digits are counted. -/
theorem least_le (proper : b.Proper) : (10 : ℚ) ^ (-330 : ℤ) ≤ b.value * 2 ^ (b.exponent - 2) := by
  have some_bit : (4 : ℚ) ≤ b.value := by
    have : 4 * 1 ≤ b.value := Nat.mul_le_mul_left 4 proper.some_bit
    exact_mod_cast this
  have powers : (2 : ℚ) ^ 1074 ≤ 10 ^ 330 := by
    calc (2 : ℚ) ^ 1074 = (2 ^ 93) ^ 11 * 2 ^ 51 := by rw [← pow_mul, ← pow_add]
      _ ≤ (10 ^ 28) ^ 11 * 10 ^ 22 := by
          apply mul_le_mul
          · exact pow_le_pow_left₀ (by positivity) (by norm_num) 11
          · norm_num
          · positivity
          · positivity
      _ = 10 ^ 330 := by rw [← pow_mul, ← pow_add]
  calc (10 : ℚ) ^ (-330 : ℤ) = (10 ^ 330)⁻¹ := by rw [zpow_neg]; rfl
    _ ≤ (2 ^ 1074)⁻¹ := inv_anti₀ (by positivity) powers
    _ = 4 * 2 ^ (-1076 : ℤ) := by
        have split : (2 : ℚ) ^ (-1076 : ℤ) = 2 ^ (-1074 : ℤ) * 2 ^ (-2 : ℤ) := by rw [← zpow_add₀ two_ne_zero]; rfl
        have least : (2 : ℚ) ^ (-1074 : ℤ) = (2 ^ 1074)⁻¹ := by rw [zpow_neg]; rfl
        rw [split, least]
        generalize ((2 : ℚ) ^ 1074)⁻¹ = tiny
        ring
    _ ≤ b.value * 2 ^ (b.exponent - 2) := by
        apply mul_le_mul some_bit
        · apply zpow_le_zpow_right₀ one_le_two
          have := proper.least
          omega
        · positivity
        · positivity

/-- The exponent of the first digit of a double. -/
theorem decimalExponent_le (proper : b.Proper) :
    (10 : ℚ) ^ b.decimalExponent ≤ b.value * 2 ^ (b.exponent - 2) := by
  obtain ⟨below, above⟩ := neighbours b (-330)
  have some_left : 0 < b.value * b.unitFactor (-330) / b.gridFactor (-330) := by
    apply Nat.pos_of_ne_zero
    intro none_left
    rw [none_left, Nat.cast_zero, zero_add, one_mul] at above
    exact absurd above (not_lt.2 (least_le proper))
  obtain ⟨j, count, low, -⟩ := digitCount_eq some_left
  have exponent : b.decimalExponent = j + -330 := by
    show (digitCount (b.value * b.unitFactor (-330) / b.gridFactor (-330)) : ℤ) - 331 = _
    rw [count]
    push_cast
    ring
  have low : ((10 ^ j : ℕ) : ℚ) ≤ (b.value * b.unitFactor (-330) / b.gridFactor (-330) : ℕ) := Nat.cast_le.2 low
  push_cast at low
  rw [exponent, zpow_add₀ (by norm_num), zpow_natCast]
  refine le_trans (mul_le_mul_of_nonneg_right ?_ (by positivity)) below
  exact_mod_cast low

/-- The shortest decimal rounds to the double. -/
theorem holds_shortest (proper : b.Proper) : b.Holds (b.shortest.digits * 10 ^ b.shortest.exponent) := by
  have found : ((List.range 17).findSome? fun n : ℕ =>
      (b.onGrid? (b.decimalExponent - n)).map fun d => Decimal.mk d (b.decimalExponent - n)).isSome := by
    rw [List.findSome?_isSome_iff]
    refine ⟨16, List.mem_range.2 (by norm_num), ?_⟩
    rw [Option.isSome_map]
    exact onGrid?_isSome proper (decimalExponent_le proper)
  obtain ⟨decimal, found⟩ := Option.isSome_iff_exists.1 found
  obtain ⟨n, -, candidate⟩ := List.exists_of_findSome?_eq_some found
  obtain ⟨d, hit, rfl⟩ := Option.map_eq_some_iff.1 candidate
  have shortest : b.shortest = ⟨d, b.decimalExponent - n⟩ := by
    show ((List.range 17).findSome? fun n : ℕ =>
      (b.onGrid? (b.decimalExponent - n)).map fun d => Decimal.mk d (b.decimalExponent - n)).getD ⟨0, 0⟩ = _
    rw [found]
    rfl
  rw [shortest]
  exact (contains_iff d).1 (onGrid?_contains hit)

end Binary

end Number

end LoxScript
