/-
**Exact quotients rounded to binary64.**

Binary64 numbers that are not negative are numbered in ascending order by their bit patterns; the
spacing doubles at each power of two. A quotient is rounded by choosing the spacing for its size
and rounding to the nearest multiple of it, with ties to the even multiple; as the pattern of the
multiple `q` of the spacing `2 ^ (k - 1074)` is `k * 2 ^ 52 + q`, a rounding up to the next power of
two needs no special treatment.

Main definitions:

* `Decimal.divRound` — the quotient of two natural numbers rounded to nearest, ties to even;
* `Decimal.binade`, `Decimal.perOne` — how many patterns a power of two has, and how many of the
  smallest spacing make one;
* `Decimal.spacing` — the exponent of the spacing of binary64 numbers at a quotient, counted from
  the smallest one;
* `Decimal.patternOf` — the bit pattern of a rounded quotient; from `infinite` on it is out of
  range.
-/

set_option relaxedAutoImplicit false
set_option autoImplicit false

namespace Vantage.Decimal

/-- The quotient of two numbers rounded to the nearest whole number, ties to the even one. -/
def divRound (num den : Nat) : Nat :=
  let q := num / den
  let r := num % den
  if 2 * r < den ∨ (2 * r = den ∧ q % 2 = 0) then q else q + 1

/-- The number of bit patterns between one power of two and the next, `2 ^ 52`. -/
def binade : Nat := 0x10000000000000

/-- How many of the smallest spacing make one. -/
def perOne : Nat := Nat.pow 2 1074

/-- The exponent `k` of the spacing `2 ^ (k - 1074)` of binary64 numbers at `num / den`: the
smallest for which fewer than `2 ^ 53` spacings make up the quotient. -/
def spacing (num den : Nat) : Nat :=
  let guess := num.log2 + 1074 - (den.log2 + 53)
  if num = 0 then 0
  else if num * perOne < den * Nat.pow 2 (53 + guess) then guess
  else guess + 1

/-- The bit pattern of the binary64 number nearest to `num / den`, ties to the even pattern. -/
def patternOf (num den : Nat) : Nat :=
  let k := spacing num den
  k * binade + divRound (num * perOne) (den * Nat.pow 2 k)

/-- The bit pattern of infinity; finite numbers have smaller ones. -/
def infinite : Nat := 0x7ff0000000000000

/-- The bit pattern of negative zero; a negative number adds it to the pattern of its amount. -/
def signBit : Nat := 0x8000000000000000

end Vantage.Decimal
