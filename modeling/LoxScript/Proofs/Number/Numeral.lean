import LoxScript.Proofs.Number.Bits
import LoxScript.Token.Piece

/-!
# Numerals are read as the nearest double

A numeral is a whole number divided by a power of ten. Where both are doubles themselves, one division rounds the
quotient; elsewhere the quotient of the two whole numbers is rounded. Either way a quotient in the interval of a double
of ordinary size gives that double. A numeral has no sign, so no other doubles than zero and positive ones are read.
-/

namespace LoxScript

namespace Number

open Float.Model Float.Model.UnpackedFloat

namespace Binary

variable {b : Binary}

/-- The double rounds to itself. -/
theorem holds_self (some_bit : 0 < b.mantissa) : b.Holds (b.mantissa * 2 ^ b.exponent) := by
  have unit : (0 : ℚ) < 2 ^ (b.exponent - 2) := by positivity
  have scaled : (b.mantissa * 2 ^ b.exponent : ℚ) = (b.value : ℕ) * 2 ^ (b.exponent - 2) := by
    rw [zpow_sub_two, value]
    push_cast
    ring
  have lower : (b.lower : ℚ) < (b.value : ℕ) := by
    apply Nat.cast_lt.2
    unfold lower value
    split <;> omega
  have upper : ((b.value : ℕ) : ℚ) < b.upper := Nat.cast_lt.2 (Nat.lt_add_of_pos_right two_pos)
  have above := mul_lt_mul_of_pos_right lower unit
  have below := mul_lt_mul_of_pos_right upper unit
  rw [Holds, scaled]
  split
  · exact ⟨above.le, below.le⟩
  · exact ⟨above, below⟩

def ofNat (n : ℕ) : Binary :=
  ⟨n <<< (52 - n.log2), n.log2 - 52, decide (n <<< (52 - n.log2) = 2 ^ 52)⟩

variable {n : ℕ}

theorem log2_le (small : n < 2 ^ 53) (some_bit : 0 < n) : n.log2 ≤ 52 :=
  Nat.lt_succ_iff.1 ((Nat.log2_lt some_bit.ne').2 small)

theorem ordinary_ofNat (some_bit : 0 < n) (small : n < 2 ^ 53) : (ofNat n).Ordinary := by
  have length := log2_le small some_bit
  have shifted : (ofNat n).mantissa = n * 2 ^ (52 - n.log2) := Nat.shiftLeft_eq _ _
  have split : n.log2 + (52 - n.log2) = 52 := by omega
  refine ⟨?_, ?_, rfl, ?_, ?_⟩
  · rw [shifted]
    calc 2 ^ 52 = 2 ^ n.log2 * 2 ^ (52 - n.log2) := by rw [← pow_add, split]
      _ ≤ n * 2 ^ (52 - n.log2) := Nat.mul_le_mul_right _ (Nat.log2_self_le some_bit.ne')
  · rw [shifted]
    calc n * 2 ^ (52 - n.log2) < 2 ^ (n.log2 + 1) * 2 ^ (52 - n.log2) :=
          Nat.mul_lt_mul_of_pos_right Nat.lt_log2_self (Nat.two_pow_pos _)
      _ = 2 ^ (n.log2 + (52 - n.log2) + 1) := by ring
      _ = 2 ^ 53 := by rw [split]
  · show -1000 ≤ (n.log2 : ℤ) - 52
    omega
  · show (n.log2 : ℤ) - 52 ≤ 900
    omega

theorem ofNat_value (small : n < 2 ^ 53) (some_bit : 0 < n) :
    ((ofNat n).mantissa * 2 ^ (ofNat n).exponent : ℚ) = n := by
  have length := log2_le small some_bit
  have exponent : (ofNat n).exponent = -((52 - n.log2 : ℕ) : ℤ) := by
    show (n.log2 : ℤ) - 52 = _
    omega
  have shifted : (ofNat n).mantissa = n * 2 ^ (52 - n.log2) := Nat.shiftLeft_eq _ _
  rw [shifted, exponent, zpow_neg, zpow_natCast]
  push_cast
  field_simp

end Binary

theorem describes_exact (m : ℕ) : Describes (.ofMantissaAndAccuracy m .exact) m :=
  sub_self _

/-- What a double of ordinary size becomes when it is taken apart again. -/
theorem unpack_pack {b : Binary} (ordinary : b.Ordinary) (some_bit : 0 < b.mantissa) : ∃ some_bit',
    (Float.Model.pack (.finite .positive b.mantissa b.exponent some_bit)).unpack =
      .finite .positive b.mantissa b.exponent some_bit' := by
  have describes := Form.ofFloat_describes (.ofModel (.pack (.finite .positive b.mantissa b.exponent some_bit)))
  rw [Form.ofFloat_pack ordinary] at describes
  exact describes

theorem ofUInt64_unpacked {n : ℕ} (some_bit : 0 < n) (small : n < 2 ^ 53) : ∃ some_bit',
    UnpackedFloat.ofUInt64 Format.binary64 n.toUInt64 =
      .finite .positive (Binary.ofNat n).mantissa (Binary.ofNat n).exponent some_bit' := by
  have ordinary := Binary.ordinary_ofNat some_bit small
  have length := Binary.log2_le small some_bit
  have nat : n.toUInt64.toNat = n := UInt64.toNat_ofNat_of_lt' (small.trans (by decide))
  have order : compare ((n.toUInt64.toNat : ℕ) : ℤ) 0 = .gt := by
    rw [nat]
    exact Int.compare_eq_gt.2 (by omega)
  have amount : ((0 : ℤ) - Format.binary64.targetExponent (totalExponent n 0)).toNat = 52 - n.log2 := by
    rw [targetExponent_eq, totalExponent]
    omega
  have exponent : (0 : ℤ) - (52 - n.log2 : ℕ) = (Binary.ofNat n).exponent := by
    show _ = (n.log2 : ℤ) - 52
    omega
  have itself : (Binary.ofNat n).Holds ((Binary.ofNat n).mantissa * 2 ^ (Binary.ofNat n).exponent) :=
    Binary.holds_self (Nat.zero_lt_of_lt ordinary.low)
  obtain ⟨some_bit', rounded⟩ := roundWithAccuracy_eq ordinary (describes_exact _) ordinary.low itself .positive
  refine ⟨some_bit', ?_⟩
  rw [UnpackedFloat.ofUInt64, UnpackedFloat.ofNat, UnpackedFloat.ofInt, UnpackedFloat.normalize, order]
  dsimp only
  rw [nat, Int.toNat_natCast, UnpackedFloat.round]
  dsimp only
  rw [decreaseExponent, amount, exponent]
  exact rounded

/-- Natural numbers that fit into a mantissa are doubles. -/
theorem unpack_toFloat {n : ℕ} (some_bit : 0 < n) (small : n < 2 ^ 53) : ∃ some_bit',
    n.toUInt64.toFloat.toModel.unpack =
      .finite .positive (Binary.ofNat n).mantissa (Binary.ofNat n).exponent some_bit' := by
  obtain ⟨some_bit', converted⟩ := ofUInt64_unpacked some_bit small
  have packed : n.toUInt64.toFloat.toModel =
      .pack (.finite .positive (Binary.ofNat n).mantissa (Binary.ofNat n).exponent some_bit') :=
    congrArg Float.Model.pack converted
  rw [packed]
  exact unpack_pack (Binary.ordinary_ofNat some_bit small) some_bit'

def Form.isPower (f : ℕ) : Form → Bool
  | .finite false b => b.mantissa * Nat.pow 2 b.exponent.toNat == Nat.pow 10 f * Nat.pow 2 (-b.exponent).toNat
  | _ => false

theorem isPower_table :
    ∀ f : Fin 23, (Form.ofFloat Float.exactlyRepresentablePowersOfTen[f]).isPower f = true := by
  decide +kernel

/-- The powers of ten by which numerals are divided are exact. -/
theorem unpack_power {f : ℕ} (h : f < Float.exactlyRepresentablePowersOfTen.size) : ∃ m e some_bit,
    (Float.exactlyRepresentablePowersOfTen[f]).toModel.unpack = .finite .positive m e some_bit ∧
      (m * 2 ^ e : ℚ) = 10 ^ f := by
  have power := isPower_table ⟨f, h⟩
  have describes := Form.ofFloat_describes (Float.exactlyRepresentablePowersOfTen[f])
  unfold Form.isPower at power
  split at power
  · next b form =>
      have form : Form.ofFloat (Float.exactlyRepresentablePowersOfTen[f]) = .finite false b := form
      rw [form] at describes
      obtain ⟨some_bit, unpacked⟩ := describes
      refine ⟨b.mantissa, b.exponent, some_bit, unpacked, ?_⟩
      have equal : b.mantissa * 2 ^ b.exponent.toNat = 10 ^ f * 2 ^ (-b.exponent).toNat := beq_iff_eq.1 power
      have equal : ((b.mantissa * 2 ^ b.exponent.toNat : ℕ) : ℚ) = (10 ^ f * 2 ^ (-b.exponent).toNat : ℕ) :=
        congrArg Nat.cast equal
      push_cast at equal
      rw [zpow_eq_pow_div two_ne_zero, ← mul_div_assoc, equal, mul_div_assoc, div_self (by positivity), mul_one]
  · cases power

/-- In the interval of a double of ordinary size a numeral has not too many places. -/
theorem places_lt {b : Binary} (ordinary : b.Ordinary) {n f : ℕ} (some_bit : 0 < n) (holds : b.Holds (n / 10 ^ f)) :
    f < 2 ^ 11 + n.log2 := by
  obtain ⟨size, -⟩ := holds.size ordinary.low ordinary.high
  have least := ordinary.least
  have ten : (2 : ℚ) ^ f ≤ 10 ^ f := pow_le_pow_left₀ two_pos.le (by norm_num) f
  have less : (2 : ℚ) ^ (b.exponent + 51 + f) < 2 ^ (n.log2 + 1 : ℤ) := by
    calc (2 : ℚ) ^ (b.exponent + 51 + f) = 2 ^ (b.exponent + 51) * 2 ^ f := by
          rw [zpow_add₀ two_ne_zero, zpow_natCast]
      _ ≤ 2 ^ (b.exponent + 51) * 10 ^ f := mul_le_mul_of_nonneg_left ten (by positivity)
      _ < n / 10 ^ f * 10 ^ f := mul_lt_mul_of_pos_right size (by positivity)
      _ = n := div_mul_cancel₀ _ (by positivity)
      _ < 2 ^ (n.log2 + 1 : ℤ) := (cast_log2_bounds some_bit).2
  have := (zpow_lt_zpow_iff_right₀ one_lt_two).1 less
  omega

theorem ofScientific_unpacked {b : Binary} (ordinary : b.Ordinary) {n f : ℕ} (some_bit : 0 < n)
    (holds : b.Holds (n / 10 ^ f)) : ∃ some_bit', UnpackedFloat.ofScientific Format.binary64 n (Int.negOfNat f) =
      .finite .positive b.mantissa b.exponent some_bit' := by
  have places := places_lt ordinary some_bit holds
  have power : Int.negOfNat f = -(f : ℤ) := Int.negOfNat_eq
  have small : ¬ Int.negOfNat f > 2 ^ 11 := by
    rw [power]
    omega
  have large : ¬ Int.negOfNat f < -(2 ^ 11 + (n.log2 : ℤ)) := by
    rw [power]
    omega
  rw [UnpackedFloat.ofScientific, dif_neg some_bit.ne', if_neg small, if_neg large]
  by_cases whole : f = 0
  · subst whole
    have enough : 2 ^ 52 ≤ n <<< 53 * 10 ^ 0 := by
      rw [Nat.shiftLeft_eq]
      omega
    have value : ((n <<< 53 * 10 ^ 0 : ℕ) : ℚ) * 2 ^ (-53 + 0 : ℤ) = n / 10 ^ 0 := by
      rw [Nat.shiftLeft_eq]
      push_cast
      norm_num
      field_simp
    rw [← value] at holds
    obtain ⟨some_bit', rounded⟩ := roundWithAccuracy_eq ordinary (describes_exact _) enough holds .positive
    refine ⟨some_bit', ?_⟩
    rw [if_pos (show 0 ≤ Int.negOfNat 0 by decide), UnpackedFloat.mul]
    exact rounded
  · have value : (n : ℚ) * 2 ^ (0 : ℤ) / ((10 ^ f : ℕ) * 2 ^ (0 : ℤ)) = n / 10 ^ f := by
      push_cast
      norm_num
    have negative : ¬ 0 ≤ Int.negOfNat f := by
      rw [power]
      omega
    have exponent : (-Int.negOfNat f).toNat = f := by
      rw [power]
      omega
    rw [← value] at holds
    obtain ⟨some_bit', quotient⟩ := div_eq ordinary some_bit (Nat.pow_pos (by decide)) holds
    refine ⟨some_bit', ?_⟩
    rw [if_neg negative]
    simp only [exponent]
    exact quotient

/-- A positive numeral in the interval of a double of ordinary size is read as this double. -/
theorem ofScientific_eq {x : Float} {b : Binary} (form : Form.ofFloat x = .finite false b) (ordinary : b.Ordinary)
    {n f : ℕ} (holds : b.Holds (n / 10 ^ f)) : Float.ofScientific n true f = x := by
  obtain ⟨size, -⟩ := holds.size ordinary.low ordinary.high
  have some_bit : 0 < n := by
    apply Nat.pos_of_ne_zero
    rintro rfl
    have : (0 : ℚ) < 2 ^ (b.exponent + 51) := by positivity
    rw [Nat.cast_zero, zero_div] at size
    linarith
  have packed (some_bit : 0 < b.mantissa) :
      Float.ofModel (.pack (.finite .positive b.mantissa b.exponent some_bit)) = x :=
    Form.ofFloat_inj (Form.ofFloat_pack ordinary some_bit) form
  unfold Float.ofScientific
  split
  · next fast =>
      obtain ⟨small, few⟩ := fast
      obtain ⟨some_bit₁, unpacked₁⟩ := unpack_toFloat some_bit small
      obtain ⟨m, e, some_bit₂, unpacked₂, power⟩ := unpack_power (Nat.lt_succ_of_le few)
      rw [← Binary.ofNat_value small some_bit, ← power] at holds
      obtain ⟨some_bit₃, quotient⟩ := div_eq ordinary some_bit₁ some_bit₂ holds
      rw [← packed some_bit₃, ← quotient, ← unpacked₁, ← unpacked₂]
      rfl
  · obtain ⟨some_bit', quotient⟩ := ofScientific_unpacked ordinary some_bit holds
    have read : Float.Model.ofScientific n (Int.negOfNat f) =
        .pack (.finite .positive b.mantissa b.exponent some_bit') := congrArg Float.Model.pack quotient
    rw [← packed some_bit', ← read]
    rfl

/-! ## Numerals -/

/-- The digits of a numeral: some before its point, and perhaps some behind it. -/
structure Numeral where
  whole : List Char
  fraction : List Char
  some_digit : whole ≠ []
  digits : ∀ c ∈ whole, isDigit c = true
  digits' : ∀ c ∈ fraction, isDigit c = true

namespace Numeral

def text (n : Numeral) : List Char :=
  match n.fraction with
  | [] => n.whole
  | d :: fraction => n.whole ++ '.' :: d :: fraction

def value (n : Numeral) : ℚ :=
  digitsValue (n.whole ++ n.fraction) / 10 ^ n.fraction.length

def read (n : Numeral) : Float :=
  ofNumeral n.whole n.fraction

theorem text_of_ne_nil {n : Numeral} (some_left : n.fraction ≠ []) : n.text = n.whole ++ '.' :: n.fraction := by
  unfold text
  split
  · next empty => exact absurd empty some_left
  · next same => rw [same]

/-- A numeral in the interval of a double of ordinary size is read as this double. -/
theorem read_eq {n : Numeral} {x : Float} {b : Binary} (form : Form.ofFloat x = .finite false b) (ordinary : b.Ordinary)
    (holds : b.Holds n.value) : n.read = x :=
  ofScientific_eq form ordinary holds

end Numeral

/-! ## Numerals have no sign -/

/-- Not a negative number, nor a negative zero. -/
def Unsigned : UnpackedFloat → Prop
  | .notANumber => True
  | .infinity sign | .zero sign | .finite sign _ _ _ => sign = .positive

theorem unsigned_roundWithAccuracy (format : Format) (m : ℕ) (e : ℤ) (accuracy : Accuracy) :
    Unsigned (roundWithAccuracy format .positive m e accuracy) := by
  unfold roundWithAccuracy
  dsimp only
  split <;> rfl

theorem unsigned_ofScientific (n : ℕ) (e : ℤ) : Unsigned (UnpackedFloat.ofScientific Format.binary64 n e) := by
  unfold UnpackedFloat.ofScientific
  split
  · rfl
  · split
    · rfl
    · split
      · rfl
      · split
        · exact unsigned_roundWithAccuracy _ _ _ _
        · exact unsigned_roundWithAccuracy _ _ _ _

theorem unsigned_div {n f : ℕ} (small : n < 2 ^ 53) (h : f < Float.exactlyRepresentablePowersOfTen.size) :
    Unsigned (UnpackedFloat.div Format.binary64 n.toUInt64.toFloat.toModel.unpack
      (Float.exactlyRepresentablePowersOfTen[f]).toModel.unpack) := by
  obtain ⟨m, e, some_bit, unpacked, -⟩ := unpack_power h
  rw [unpacked]
  by_cases zero : n = 0
  · subst zero
    have form : Form.ofFloat (Nat.toUInt64 0).toFloat = .zero false := by decide +kernel
    have describes := Form.ofFloat_describes (Nat.toUInt64 0).toFloat
    rw [form] at describes
    rw [describes]
    rfl
  · obtain ⟨some_bit', unpacked'⟩ := unpack_toFloat (Nat.pos_of_ne_zero zero) small
    rw [unpacked']
    exact unsigned_roundWithAccuracy _ _ _ _

theorem exists_unsigned (n f : ℕ) : ∃ u, Unsigned u ∧ Float.ofScientific n true f = .ofModel (.pack u) := by
  unfold Float.ofScientific
  split
  · next fast => exact ⟨_, unsigned_div fast.1 (Nat.lt_succ_of_le fast.2), rfl⟩
  · exact ⟨_, unsigned_ofScientific n (Int.negOfNat f), rfl⟩

theorem toNat_packComponents_lt (biased : BitVec 11) (m : BitVec 52) :
    (packComponents Format.binary64 .positive biased m).toNat < fractionSize * exponentFields := by
  have size : fractionSize * exponentFields = 2 ^ 63 := rfl
  have := biased.isLt
  have := m.isLt
  rw [toNat_packComponents, size]
  omega

theorem toNat_pack_lt {u : UnpackedFloat} (h : Unsigned u) :
    (Float.Model.pack u).toBits.toNat < fractionSize * exponentFields := by
  show (UnpackedFloat.pack Format.binary64 u).toNat < _
  cases u with
  | notANumber => exact toNat_packComponents_lt _ _
  | infinity sign | zero sign =>
      cases h
      exact toNat_packComponents_lt _ _
  | finite sign m e some_bit =>
      cases h
      unfold UnpackedFloat.pack
      dsimp only
      split
      · exact toNat_packComponents_lt _ _
      · split
        · exact toNat_packComponents_lt _ _
        · exact toNat_packComponents_lt _ _

theorem form_of_unsigned {x : Float} (positive : x.toBits.toNat < fractionSize * exponentFields)
    (finite : x.isFinite = true) : Form.ofFloat x = .zero false ∨ ∃ b, Form.ofFloat x = .finite false b := by
  have sign : decide (fractionSize * exponentFields ≤ x.toBits.toNat) = false := decide_eq_false (not_le.2 positive)
  have describes := Form.ofFloat_describes x
  have finite : x.toModel.unpack.isFinite = true := finite
  unfold Form.ofFloat Form.ofBits at describes ⊢
  rw [sign] at describes ⊢
  dsimp only at describes ⊢
  split at describes
  · split at describes
    · rw [describes] at finite
      cases finite
    · rw [describes] at finite
      cases finite
  · next inside =>
      rw [if_neg inside]
      split
      · split
        · exact .inl rfl
        · exact .inr ⟨_, rfl⟩
      · exact .inr ⟨_, rfl⟩

/-- A finite double that a numeral is read as is zero or positive. -/
theorem form_of_numeral {whole fraction : List Char} (finite : (ofNumeral whole fraction).isFinite = true) :
    Form.ofFloat (ofNumeral whole fraction) = .zero false ∨
      ∃ b, Form.ofFloat (ofNumeral whole fraction) = .finite false b := by
  obtain ⟨u, unsigned, read⟩ := exists_unsigned (digitsValue (whole ++ fraction)) fraction.length
  apply form_of_unsigned _ finite
  rw [ofNumeral, read]
  exact toNat_pack_lt unsigned

end Number

end LoxScript
