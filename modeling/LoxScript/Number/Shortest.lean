/-!
# The fewest decimal digits that identify a double

A positive double is read off its bits as `mantissa * 2 ^ exponent`. The reals that round to it form an
interval, whose ends belong to it exactly when the mantissa is even. `shortest` tries the decimal grids from
coarse to fine, in exact natural arithmetic, and keeps the first grid point inside the interval.
-/

namespace LoxScript

namespace Number

/-- A positive double. `narrowBelow` marks the powers of two whose lower neighbour is at half distance. -/
structure Binary where
  mantissa : Nat
  exponent : Int
  narrowBelow : Bool
  deriving DecidableEq, Repr

inductive Form where
  | notANumber
  | infinite (negative : Bool)
  | zero (negative : Bool)
  | finite (negative : Bool) (magnitude : Binary)
  deriving DecidableEq, Repr

/-- The mantissa of the normal doubles begins here; the bits below it are the fraction. -/
def fractionSize : Nat := Nat.pow 2 52

def exponentFields : Nat := Nat.pow 2 11

def Form.ofBits (bits : UInt64) : Form :=
  let fraction := bits.toNat % fractionSize
  let biased := bits.toNat / fractionSize % exponentFields
  let negative := decide (fractionSize * exponentFields ≤ bits.toNat)
  if biased + 1 = exponentFields then
    if fraction = 0 then .infinite negative else .notANumber
  else if biased = 0 then
    if fraction = 0 then .zero negative else .finite negative ⟨fraction, -1074, false⟩
  else
    .finite negative ⟨fractionSize + fraction, Int.ofNat biased - 1075, decide (fraction = 0 ∧ 1 < biased)⟩

def Form.ofFloat (x : Float) : Form :=
  .ofBits x.toBits

structure Decimal where
  digits : Nat
  exponent : Int
  deriving DecidableEq, Repr

/-- Number of decimal digits, counted with a bound on how many there are. -/
def digitCountWithin : Nat → Nat → Nat
  | 0, _ => 0
  | bound + 1, n => if n < 10 then 1 else digitCountWithin bound (n / 10) + 1

def digitCount (n : Nat) : Nat :=
  digitCountWithin (n + 1) n

namespace Binary

/-!
A quarter of the last place is the common unit `2 ^ (exponent - 2)` of the value and of both ends of its
rounding interval.
-/

def value (b : Binary) : Nat :=
  4 * b.mantissa

def lower (b : Binary) : Nat :=
  b.value - (if b.narrowBelow then 1 else 2)

def upper (b : Binary) : Nat :=
  b.value + 2

/-- Factor of a quarter unit when it is compared with the grid of step `10 ^ k`. -/
def unitFactor (b : Binary) (k : Int) : Nat :=
  Nat.pow 2 (b.exponent - 2).toNat * Nat.pow 10 (-k).toNat

/-- Factor of a grid step `10 ^ k` when it is compared with quarter units. -/
def gridFactor (b : Binary) (k : Int) : Nat :=
  Nat.pow 10 k.toNat * Nat.pow 2 (2 - b.exponent).toNat

def contains (b : Binary) (k : Int) (d : Nat) : Bool :=
  let point := d * b.gridFactor k
  let low := b.lower * b.unitFactor k
  let high := b.upper * b.unitFactor k
  if b.mantissa % 2 = 0 then decide (low ≤ point ∧ point ≤ high)
  else decide (low < point ∧ point < high)

/-- The point of the grid `10 ^ k` that stands for this double, if one of its two neighbours rounds to it.
Of two such neighbours the nearer is taken, and of two equally near ones the even. -/
def onGrid? (b : Binary) (k : Int) : Option Nat :=
  let scaled := b.value * b.unitFactor k
  let step := b.gridFactor k
  let below := scaled / step
  match b.contains k below, b.contains k (below + 1) with
  | true, true =>
      match compare (2 * (scaled % step)) step with
      | .lt => some below
      | .gt => some (below + 1)
      | .eq => some (if below % 2 = 0 then below else below + 1)
  | true, false => some below
  | false, true => some (below + 1)
  | false, false => none

/-- Exponent of the first decimal digit. No double is below `10 ^ (-330)`. -/
def decimalExponent (b : Binary) : Int :=
  let scaled := b.value * b.unitFactor (-330) / b.gridFactor (-330)
  (digitCount scaled : Int) - 331

/-- The fewest digits that read back; seventeen always do. -/
def shortest (b : Binary) : Decimal :=
  let top := b.decimalExponent
  let candidate (n : Nat) : Option Decimal := (b.onGrid? (top - n)).map fun d => ⟨d, top - n⟩
  ((List.range 17).findSome? candidate).getD ⟨0, 0⟩

end Binary

end Number

end LoxScript
