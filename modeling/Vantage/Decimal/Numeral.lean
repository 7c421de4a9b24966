/-
**Numbers written with a decimal point and an exponent.**

A numeral is an optional sign, digits with an optional point among or around them, and optionally
an `e` with a whole number that shifts the point. There is at least one digit beside the point.

Main definitions:

* `Decimal.Numeral`, `Numeral.ofText?` — what a numeral denotes, and reading one;
* `Numeral.pattern` — the bit pattern of the amount of the number, rounded to binary64.
-/

import Vantage.Decimal.Integer
import Vantage.Decimal.Rounding

set_option relaxedAutoImplicit false
set_option autoImplicit false

namespace Vantage.Decimal

/-- What a numeral denotes: the number with the given digits, times a power of ten. -/
structure Numeral where
  negative : Bool
  /-- The digits before and after the point, as one whole number. -/
  digits : Nat
  /-- The number of these digits from the first one that is not zero. -/
  length : Nat
  exponent : Int
deriving DecidableEq, Repr

namespace Numeral

/-- Splits off a sign; without one the number is not negative. -/
def splitSign : List Char → Bool × List Char
  | '-' :: rest => (true, rest)
  | '+' :: rest => (false, rest)
  | rest => (false, rest)

/-- Splits off the digits in front. -/
def splitDigits (cs : List Char) : List Char × List Char :=
  (cs.takeWhile Char.isDigit, cs.dropWhile Char.isDigit)

/-- Splits off a point with the digits that follow it; without a point there are none. -/
def splitFraction : List Char → List Char × List Char
  | '.' :: rest => splitDigits rest
  | rest => ([], rest)

/-- The exponent that ends a numeral; without one the point stays where it is. -/
def exponentOf? : List Char → Option Int
  | [] => some 0
  | c :: rest => if c = 'e' ∨ c = 'E' then signedOf? rest else none

/-- Reads a numeral. -/
def ofText? (cs : List Char) : Option Numeral := do
  let (negative, cs) := splitSign cs
  let (whole, cs) := splitDigits cs
  let (fraction, cs) := splitFraction cs
  let exponent ← exponentOf? cs
  let digits ← natOf? 10 (whole ++ fraction)
  return {
    negative
    digits
    length := ((whole ++ fraction).dropWhile (· = '0')).length
    exponent := exponent - fraction.length }

/-- The bit pattern of the amount that a numeral denotes, rounded to the nearest binary64 number
with ties to even. Amounts of `10 ^ 310` and more are out of range, and amounts below `10 ^ -330`
are rounded to zero; between these bounds the quotient is computed. -/
def pattern (x : Numeral) : Nat :=
  if x.digits = 0 then 0
  else if x.length + x.exponent > 310 then infinite
  else if x.length + x.exponent < -330 then 0
  else if 0 ≤ x.exponent then patternOf (x.digits * Nat.pow 10 x.exponent.toNat) 1
  else patternOf x.digits (Nat.pow 10 (-x.exponent).toNat)

end Numeral

end Vantage.Decimal
