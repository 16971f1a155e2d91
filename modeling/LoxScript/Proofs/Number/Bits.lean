import LoxScript.Proofs.Number.Rounding

/-!
# What the bits of a double say

The form of a double, read off its bits, agrees with what arithmetic on doubles makes of the same bits. A finite double
is determined by its form.
-/

namespace LoxScript

namespace Number

open Float.Model Float.Model.UnpackedFloat

/-! ## The fields of a word -/

section Fields

variable (bits : BitVec 64)

theorem toNat_unpackMantissa : (@unpackMantissa Format.binary64 bits).toNat = bits.toNat % fractionSize := by
  show (bits.extractLsb 51 0).toNat = _
  rw [BitVec.extractLsb_toNat, Nat.shiftRight_zero]
  rfl

theorem toNat_unpackExponent :
    (@unpackExponent Format.binary64 bits).toNat = bits.toNat / fractionSize % exponentFields := by
  show (bits.extractLsb 62 52).toNat = _
  rw [BitVec.extractLsb_toNat, Nat.shiftRight_eq_div_pow]
  rfl

theorem ofBitVec_unpackSign : Sign.ofBitVec (@unpackSign Format.binary64 bits) =
    if fractionSize * exponentFields ≤ bits.toNat then .negative else .positive := by
  have size : fractionSize * exponentFields = 2 ^ 63 := rfl
  have sign : (@unpackSign Format.binary64 bits).toNat = bits.toNat / 2 ^ 63 % 2 := by
    show (bits.extractLsb 63 63).toNat = _
    rw [BitVec.extractLsb_toNat, Nat.shiftRight_eq_div_pow]
  have bound : bits.toNat < 2 ^ 64 := bits.isLt
  rw [Sign.ofBitVec, size]
  by_cases high : 2 ^ 63 ≤ bits.toNat
  · rw [if_pos high, if_neg]
    intro zero
    rw [zero] at sign
    have : (0#1).toNat = 0 := rfl
    omega
  · rw [if_neg high, if_pos]
    apply BitVec.eq_of_toNat_eq
    rw [sign]
    show _ = 0
    omega

end Fields

/-! ## Forms -/

def signOf (negative : Bool) : Sign :=
  if negative then .negative else .positive

/-- A form says of a double what arithmetic makes of it. -/
def Form.Describes : Form → UnpackedFloat → Prop
  | .notANumber, u => u = .notANumber
  | .infinite negative, u => u = .infinity (signOf negative)
  | .zero negative, u => u = .zero (signOf negative)
  | .finite negative b, u => ∃ some_bit, u = .finite (signOf negative) b.mantissa b.exponent some_bit

theorem describes_unpack (bits : UInt64) : (Form.ofBits bits).Describes (unpack Format.binary64 bits.toBitVec) := by
  have fraction := toNat_unpackMantissa bits.toBitVec
  have biased := toNat_unpackExponent bits.toBitVec
  have sign : Sign.ofBitVec (@unpackSign Format.binary64 bits.toBitVec) =
      signOf (decide (fractionSize * exponentFields ≤ bits.toNat)) := by
    rw [ofBitVec_unpackSign, signOf]
    simp
  have top : @unpackExponent Format.binary64 bits.toBitVec = -1#11 ↔
      bits.toNat / fractionSize % exponentFields + 1 = exponentFields := by
    rw [← BitVec.toNat_inj, biased]
    exact (Nat.succ_inj (b := 2047)).symm
  have bottom : @unpackExponent Format.binary64 bits.toBitVec = 0#11 ↔
      bits.toNat / fractionSize % exponentFields = 0 := by
    rw [← BitVec.toNat_inj, biased]
    exact Iff.rfl
  have none_left : @unpackMantissa Format.binary64 bits.toBitVec = 0#52 ↔ bits.toNat % fractionSize = 0 := by
    rw [← BitVec.toNat_inj, fraction]
    exact Iff.rfl
  unfold UnpackedFloat.unpack Form.ofBits
  dsimp only
  rw [sign]
  by_cases h : bits.toNat / fractionSize % exponentFields + 1 = exponentFields
  · rw [if_pos h, if_pos (top.2 h)]
    by_cases zero : bits.toNat % fractionSize = 0
    · rw [if_pos zero, if_pos (none_left.2 zero)]
      rfl
    · rw [if_neg zero, if_neg (mt none_left.1 zero)]
      rfl
  · rw [if_neg h, if_neg (mt top.1 h)]
    by_cases h0 : bits.toNat / fractionSize % exponentFields = 0
    · rw [if_pos h0, if_pos (bottom.2 h0)]
      by_cases zero : bits.toNat % fractionSize = 0
      · rw [if_pos zero, dif_pos (none_left.2 zero)]
        rfl
      · rw [if_neg zero, dif_neg (mt none_left.1 zero)]
        refine ⟨Nat.pos_of_ne_zero zero, ?_⟩
        rw [UnpackedFloat.finite.injEq]
        refine ⟨rfl, fraction, ?_⟩
        rw [bottom.2 h0]
        rfl
    · rw [if_neg h0, if_neg (mt bottom.1 h0)]
      refine ⟨Nat.add_pos_left (by decide) _, ?_⟩
      rw [UnpackedFloat.finite.injEq]
      refine ⟨rfl, ?_, ?_⟩
      · rw [BitVec.toNat_append, ← Nat.shiftLeft_add_eq_or_of_lt (BitVec.isLt _), fraction]
        rfl
      · rw [biased]
        rfl

theorem Form.ofFloat_describes (x : Float) : (Form.ofFloat x).Describes x.toModel.unpack :=
  describes_unpack x.toModel.toBits

structure Binary.Proper (b : Binary) : Prop where
  some_bit : 0 < b.mantissa
  high : b.mantissa < 2 ^ 53
  least : -1074 ≤ b.exponent
  narrow : b.narrowBelow = true → b.mantissa = 2 ^ 52
  normal : -1074 < b.exponent → 2 ^ 52 ≤ b.mantissa ∧ b.narrowBelow = decide (b.mantissa = 2 ^ 52)

theorem Binary.Proper.ordinary {b : Binary} (proper : b.Proper) (least : -1000 ≤ b.exponent) (most : b.exponent ≤ 900) :
    b.Ordinary := by
  obtain ⟨low, narrow⟩ := proper.normal (by omega)
  exact ⟨low, proper.high, narrow, least, most⟩

/-- The bits of a finite double: those without an exponent field, and the others, which have one more bit. -/
theorem ofBits_cases {bits : UInt64} {negative : Bool} {b : Binary} (h : Form.ofBits bits = .finite negative b) :
    negative = decide (2 ^ 63 ≤ bits.toNat) ∧
      (bits.toNat / 2 ^ 52 % 2 ^ 11 = 0 ∧ bits.toNat % 2 ^ 52 ≠ 0 ∧ b = ⟨bits.toNat % 2 ^ 52, -1074, false⟩ ∨
        bits.toNat / 2 ^ 52 % 2 ^ 11 ≠ 0 ∧
          b = ⟨2 ^ 52 + bits.toNat % 2 ^ 52, (bits.toNat / 2 ^ 52 % 2 ^ 11 : ℕ) - 1075,
            decide (bits.toNat % 2 ^ 52 = 0 ∧ 1 < bits.toNat / 2 ^ 52 % 2 ^ 11)⟩) := by
  have size : fractionSize = 2 ^ 52 := rfl
  have fields : exponentFields = 2 ^ 11 := rfl
  unfold Form.ofBits at h
  rw [size, fields] at h
  dsimp only at h
  split at h
  · split at h <;> cases h
  · split at h
    · next bottom =>
        split at h
        · cases h
        · next some_bit =>
            cases h
            exact ⟨rfl, .inl ⟨bottom, some_bit, rfl⟩⟩
    · next some_field =>
        cases h
        exact ⟨rfl, .inr ⟨some_field, rfl⟩⟩

theorem proper_of_finite {bits : UInt64} {negative : Bool} {b : Binary} (h : Form.ofBits bits = .finite negative b) :
    b.Proper := by
  obtain ⟨-, ⟨-, some_bit, rfl⟩ | ⟨some_field, rfl⟩⟩ := ofBits_cases h
  · constructor <;> dsimp only
    · omega
    · omega
    · omega
    · exact nofun
    · omega
  · constructor <;> dsimp only
    · omega
    · omega
    · omega
    · rw [decide_eq_true_eq]
      omega
    · intro more
      rw [decide_eq_decide]
      omega

/-- A finite double has no other bits than its form tells. -/
theorem toNat_of_finite {bits : UInt64} {negative : Bool} {b : Binary} (h : Form.ofBits bits = .finite negative b) :
    bits.toNat = (if negative then 2 ^ 63 else 0) +
      (if 2 ^ 52 ≤ b.mantissa then (b.exponent + 1075).toNat * 2 ^ 52 + (b.mantissa - 2 ^ 52) else b.mantissa) := by
  have bound : bits.toNat < 2 ^ 64 := bits.toNat_lt
  obtain ⟨rfl, ⟨bottom, -, rfl⟩ | ⟨-, rfl⟩⟩ := ofBits_cases h
  · simp only [decide_eq_true_eq]
    split <;> split <;> omega
  · simp only [decide_eq_true_eq]
    split <;> split <;> omega

theorem toNat_of_zero {bits : UInt64} (h : Form.ofBits bits = .zero false) : bits.toNat = 0 := by
  have bound : bits.toNat < 2 ^ 64 := bits.toNat_lt
  have size : fractionSize = 2 ^ 52 := rfl
  have fields : exponentFields = 2 ^ 11 := rfl
  unfold Form.ofBits at h
  rw [size, fields] at h
  dsimp only at h
  split at h
  · split at h <;> cases h
  · split at h
    · split at h
      · rw [Form.zero.injEq, decide_eq_false_iff_not] at h
        omega
      · cases h
    · cases h

theorem form_zero : Form.ofFloat 0 = .zero false := by
  decide +kernel

/-- Zero is the only double that is zero and has no sign. -/
theorem eq_zero_of_form {x : Float} (h : Form.ofFloat x = .zero false) : x = 0 := by
  have same : x.toModel.toBits = (0 : Float).toModel.toBits := by
    apply UInt64.toNat_inj.1
    exact (toNat_of_zero h).trans (toNat_of_zero form_zero).symm
  obtain ⟨⟨bits, valid⟩⟩ := x
  dsimp only at same
  subst same
  rfl

/-- No two finite doubles have the same form. -/
theorem Form.ofFloat_inj {x y : Float} {negative : Bool} {b : Binary} (hx : Form.ofFloat x = .finite negative b)
    (hy : Form.ofFloat y = .finite negative b) : x = y := by
  obtain ⟨⟨bits, valid⟩⟩ := x
  obtain ⟨⟨bits', valid'⟩⟩ := y
  have same : bits = bits' := by
    apply UInt64.toNat_inj.1
    exact (toNat_of_finite hx).trans (toNat_of_finite hy).symm
  subst same
  rfl

/-! ## The double with a mantissa and an exponent -/

theorem toNat_packComponents (biased : BitVec 11) (m : BitVec 52) :
    (packComponents Format.binary64 .positive biased m).toNat = biased.toNat * 2 ^ 52 + m.toNat := by
  have zero : (0#1).toNat = 0 := rfl
  show ((0#1 ++ biased) ++ m).toNat = _
  rw [BitVec.toNat_append, ← Nat.shiftLeft_add_eq_or_of_lt m.isLt, BitVec.toNat_append,
    ← Nat.shiftLeft_add_eq_or_of_lt biased.isLt, zero, Nat.zero_shiftLeft, zero_add, Nat.shiftLeft_eq]

/-- Packing a mantissa and an exponent gives the double that has them. -/
theorem Form.ofFloat_pack {b : Binary} (ordinary : b.Ordinary) (some_bit : 0 < b.mantissa) :
    Form.ofFloat (.ofModel (.pack (.finite .positive b.mantissa b.exponent some_bit))) = .finite false b := by
  obtain ⟨m, e, narrowBelow⟩ := b
  obtain ⟨low, high, narrow, least, most⟩ := ordinary
  dsimp only at low high narrow least most some_bit ⊢
  have length : m.log2 + 1 = Format.binary64.mantissaBits := by
    have : m.log2 = 52 := (Nat.log2_eq_iff some_bit.ne').2 ⟨low, high⟩
    rw [this]
    rfl
  have fits : ¬ 2 ^ 11 ≤ (e + (1023 : ℕ) + (52 : ℕ)).toNat + 1 := by omega
  have packed : UnpackedFloat.pack Format.binary64 (.finite .positive m e some_bit) =
      packComponents Format.binary64 .positive (BitVec.ofNat 11 (e + (1023 : ℕ) + (52 : ℕ)).toNat)
        (BitVec.ofNat 52 m) := by
    rw [UnpackedFloat.pack]
    exact (if_neg fits).trans (if_pos length)
  have bits : (Float.Model.pack (.finite .positive m e some_bit)).toBits.toNat =
      (e + 1075).toNat * 2 ^ 52 + (m - 2 ^ 52) := by
    show (UnpackedFloat.pack Format.binary64 (.finite .positive m e some_bit)).toNat = _
    rw [packed, toNat_packComponents, BitVec.toNat_ofNat, BitVec.toNat_ofNat]
    omega
  show Form.ofBits (Float.Model.pack (.finite .positive m e some_bit)).toBits = _
  have size : fractionSize = 2 ^ 52 := rfl
  have fields : exponentFields = 2 ^ 11 := rfl
  unfold Form.ofBits
  rw [bits, size, fields]
  have fraction : ((e + 1075).toNat * 2 ^ 52 + (m - 2 ^ 52)) % 2 ^ 52 = m - 2 ^ 52 := by omega
  have biased : ((e + 1075).toNat * 2 ^ 52 + (m - 2 ^ 52)) / 2 ^ 52 % 2 ^ 11 = (e + 1075).toNat := by omega
  dsimp only
  rw [fraction, biased, if_neg (by omega), if_neg (by omega), narrow]
  have positive : decide (2 ^ 52 * 2 ^ 11 ≤ (e + 1075).toNat * 2 ^ 52 + (m - 2 ^ 52)) = false := by
    rw [decide_eq_false_iff_not]
    omega
  have mantissa : 2 ^ 52 + (m - 2 ^ 52) = m := by omega
  have exponent : Int.ofNat (e + 1075).toNat - 1075 = e := by
    rw [Int.ofNat_eq_natCast]
    omega
  have power : (m - 2 ^ 52 = 0 ∧ 1 < (e + 1075).toNat) ↔ m = 2 ^ 52 := by omega
  rw [positive, mantissa, exponent, decide_eq_decide.2 power]

end Number

end LoxScript
