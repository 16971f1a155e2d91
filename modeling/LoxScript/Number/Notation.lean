import LoxScript.Number.Shortest

/-!
# How numbers are written and read

`Layout` holds the decisions of a number format. Two formats are in use: `Layout.full`, which always shows
a fraction, and `Layout.plain`, which shows whole numbers without one. `ofNumeral` reads the digits of a
numeral.
-/

namespace LoxScript

namespace Number

/-- Where positional notation ends and what surrounds the digits. -/
structure Layout where
  /-- Least exponent of the first digit that is written positionally. -/
  lowest : Int
  /-- Least exponent of the first digit that is too large to be written positionally. -/
  limit : Int
  /-- What follows the digits of a whole number. -/
  wholeTail : List Char
  /-- Least number of digits in a written exponent. -/
  exponentWidth : Nat
  deriving DecidableEq, Repr

/-- Positional notation for `10 ^ (-4) ≤ x < 10 ^ 16`, and a whole number is followed by `.0`. -/
def Layout.full : Layout := ⟨-4, 16, ['.', '0'], 2⟩

/-- As `Layout.full`, but a whole number is written without a fraction. -/
def Layout.plain : Layout := ⟨-4, 16, [], 2⟩

def decimalDigits (n : Nat) : List Char :=
  Nat.toDigits 10 n

def dropTrailingZeros (digits : List Char) : List Char :=
  (digits.reverse.dropWhile (· == '0')).reverse

/-- A signed exponent of at least `width` digits. -/
def exponentText (width : Nat) (e : Int) : List Char :=
  let digits := decimalDigits e.natAbs
  let sign := if e < 0 then '-' else '+'
  'e' :: sign :: (List.replicate (width - digits.length) '0' ++ digits)

def Layout.place (l : Layout) (digits : List Char) (e : Int) : List Char :=
  if l.lowest ≤ e ∧ e < l.limit then
    if e < 0 then
      ['0', '.'] ++ List.replicate ((-e).toNat - 1) '0' ++ digits
    else
      let whole := e.toNat + 1
      if digits.length ≤ whole then
        digits ++ List.replicate (whole - digits.length) '0' ++ l.wholeTail
      else
        digits.take whole ++ '.' :: digits.drop whole
  else
    match digits with
    | [] => []
    | [d] => d :: exponentText l.exponentWidth e
    | d :: rest => d :: '.' :: rest ++ exponentText l.exponentWidth e

def Layout.decimal (l : Layout) (d : Decimal) : List Char :=
  let digits := decimalDigits d.digits
  l.place (dropTrailingZeros digits) (d.exponent + digits.length - 1)

/-- The written form of a double under a layout. Only numbers other than NaN carry a sign. -/
def Layout.render (l : Layout) (x : Float) : String :=
  let signed (negative : Bool) (text : List Char) : String :=
    .ofList (if negative then '-' :: text else text)
  match Form.ofFloat x with
  | .notANumber => "nan"
  | .infinite negative => signed negative ['i', 'n', 'f']
  | .zero negative => signed negative ('0' :: l.wholeTail)
  | .finite negative magnitude => signed negative (l.decimal magnitude.shortest)

/-- Text of a number that always tells it apart from an integer: `3.0`, `0.1`, `1e+16`. -/
def fullText (x : Float) : String :=
  Layout.full.render x

/-- Text of a number as programs show it: `3`, `0.1`, `1e+16`. -/
def plainText (x : Float) : String :=
  Layout.plain.render x

def digitValue (c : Char) : Nat :=
  c.toNat - '0'.toNat

def digitsValue (digits : List Char) : Nat :=
  digits.foldl (fun n c => 10 * n + digitValue c) 0

/-- The double nearest to the numeral with these digits before and after its point. -/
def ofNumeral (whole fraction : List Char) : Float :=
  Float.ofScientific (digitsValue (whole ++ fraction)) true fraction.length

end Number

end LoxScript
