import ParserGen.Decimal.Basic

/-!
# Shortest decimal form of a floating-point number

A floating-point number is written with the fewest digits that read back as the same number. The
reals that read back as it form an interval around it. The decimal numbers with the fewest digits in
an interval are its multiples of the largest power of ten that has any; of those the one nearest to
the number is written.
-/

namespace ParserGen

/-- The positive number `mantissa * 2 ^ exponent`. -/
structure Binary where
  mantissa : Nat
  exponent : Int
  /-- The next smaller number is only half as far away as the next larger one. -/
  narrowBelow : Bool
deriving DecidableEq, Inhabited

/-- The reals that read back as a number, on a scale on which all of them are whole: the number and
the ends of the interval, and the length that `1` has there. -/
structure Rounding where
  value : Nat
  lower : Nat
  upper : Nat
  one : Nat
  /-- The ends belong to the interval. -/
  closed : Bool
deriving DecidableEq, Inhabited

namespace Rounding

/-- The interval of a number reaches halfway to its two neighbours. -/
def ofBinary (b : Binary) : Rounding :=
  let scale := Nat.pow 2 b.exponent.toNat
  { value := 4 * b.mantissa * scale
    lower := (4 * b.mantissa - if b.narrowBelow then 1 else 2) * scale
    upper := (4 * b.mantissa + 2) * scale
    one := 4 * Nat.pow 2 (-b.exponent).toNat
    closed := b.mantissa % 2 == 0 }

/-- Whether the interval contains a number on its scale. -/
def contains (r : Rounding) (x : Nat) : Bool :=
  if r.closed then r.lower ≤ x && x ≤ r.upper else r.lower < x && x < r.upper

/-- The same interval on a scale that is finer by a factor. -/
def refine (r : Rounding) (factor : Nat) : Rounding :=
  { r with value := r.value * factor, lower := r.lower * factor, upper := r.upper * factor,
           one := r.one * factor }

/-- The multiple of `unit` in the interval that is nearest to the value, the larger one of two that
are equally near. -/
def nearestMultiple? (r : Rounding) (unit : Nat) : Option Nat :=
  let below := r.value / unit
  let above := below + 1
  match r.contains (below * unit), r.contains (above * unit) with
  | true, true =>
    if r.value - below * unit < above * unit - r.value then some below else some above
  | true, false => some below
  | false, true => some above
  | false, false => none

/-- The nearest multiple of a power of ten in the interval. -/
def multipleOf? (r : Rounding) (exponent : Int) : Option Decimal :=
  let refined := r.refine (Nat.pow 10 (-exponent).toNat)
  (refined.nearestMultiple? (r.one * Nat.pow 10 exponent.toNat)).map fun digits =>
    { digits, exponent }

/-- Tries one power of ten after another, from the largest one down. -/
def shortest (r : Rounding) : Nat → Int → Decimal
  | 0, exponent => { digits := 0, exponent }
  | fuel + 1, exponent =>
    match r.multipleOf? exponent with
    | some d => d
    | none => shortest r fuel (exponent - 1)

end Rounding

/-- What the bits of a floating-point number of 64 bits say. -/
inductive FloatValue where
  | nan
  | infinite (negative : Bool)
  | zero (negative : Bool)
  | finite (negative : Bool) (magnitude : Binary)
deriving DecidableEq, Inhabited

namespace FloatValue

/-- The highest bit of a mantissa, which is not written unless the number is too small to have it. -/
def hiddenBit : Nat := 1 <<< 52

/-- Takes the bits apart: the sign, eleven bits of exponent, 52 bits of mantissa. -/
def ofBits (bits : Nat) : FloatValue :=
  let negative := (bits >>> 63) % 2 == 1
  let exponent : Nat := (bits >>> 52) % 2048
  let fraction := bits % hiddenBit
  if exponent == 2047 then if fraction == 0 then infinite negative else nan
  else if exponent == 0 then
    if fraction == 0 then zero negative
    else finite negative { mantissa := fraction, exponent := -1074, narrowBelow := false }
  else
    finite negative
      { mantissa := hiddenBit + fraction, exponent := (exponent : Int) - 1075
        narrowBelow := fraction == 0 && exponent > 1 }

/-- Takes a floating-point number apart. -/
def ofFloat (x : Float) : FloatValue :=
  ofBits x.toBits.toNat

/-- Every interval has a multiple of one of so many powers of ten. -/
def exponentCount : Nat := 640

/-- The shortest decimal number that reads back as a number. The search starts at a power of ten
beyond the interval. -/
def shortest (magnitude : Binary) : Decimal :=
  let r := Rounding.ofBinary magnitude
  r.shortest exponentCount (Nat.toDigits 10 (r.upper / r.one)).length

/-- The sign of a negative number. -/
def sign (negative : Bool) : String :=
  if negative then "-" else ""

/-- How the number is written: never with an exponent, and a whole number without a point. -/
def display : FloatValue → String
  | nan => "NaN"
  | infinite negative => sign negative ++ "inf"
  | zero negative => sign negative ++ "0"
  | finite negative magnitude => sign negative ++ (shortest magnitude).positional

end FloatValue

end ParserGen
