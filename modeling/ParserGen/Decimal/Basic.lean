/-!
# Decimal notation

Numerals, which stand for natural numbers, also for machine words with a plus sign before them; and numbers
with finitely many decimal digits, as they are written without an exponent.
-/

namespace ParserGen

namespace Text

/-- The number that decimal digits stand for. -/
def ofDigits (cs : List Char) : Nat :=
  cs.foldl (fun n c => n * 10 + (c.toNat - '0'.toNat)) 0

/-- Reads a numeral, which has at least one digit. -/
def numeral? (cs : List Char) : Option Nat :=
  if !cs.isEmpty && cs.all Char.isDigit then some (ofDigits cs) else none

/-- Reads a number below a limit, which may have a plus sign. -/
def unsigned? (limit : Nat) (text : String) : Option Nat :=
  let digits := match text.toList with
    | '+' :: rest => rest
    | cs => cs
  (numeral? digits).filter fun n => decide (n < limit)

end Text

/-- The number `digits * 10 ^ exponent`. -/
structure Decimal where
  digits : Nat
  exponent : Int
deriving DecidableEq, Inhabited

namespace Decimal

/-- Reads a numeral, with a point and the digits of a fraction after it if there are any. -/
def ofText? (s : String) : Option Decimal :=
  let whole := s.toList.takeWhile (· != '.')
  match s.toList.dropWhile (· != '.') with
  | [] => (Text.numeral? whole).map fun digits => { digits, exponent := 0 }
  | _ :: fraction =>
    match Text.numeral? whole, Text.numeral? fraction with
    | some w, some f =>
      some { digits := w * Nat.pow 10 fraction.length + f, exponent := -fraction.length }
    | _, _ => none

/-- The floating-point number nearest to a decimal number. -/
def toFloat (d : Decimal) : Float :=
  Float.ofScientific d.digits (decide (d.exponent < 0)) d.exponent.natAbs

/-- Writes all digits of a number, and a point only before the digits of a fraction. -/
def positional (d : Decimal) : String :=
  let digits := Nat.toDigits 10 d.digits
  match d.exponent with
  | .ofNat zeros => String.ofList (digits ++ List.replicate zeros '0')
  | .negSucc n =>
    let places := n + 1
    let padded := List.replicate (places + 1 - digits.length) '0' ++ digits
    let whole := padded.length - places
    String.ofList (padded.take whole ++ '.' :: padded.drop whole)

end Decimal

end ParserGen
