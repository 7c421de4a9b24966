/-
**The fewest digits that tell a binary64 number from all others.**

Every binary64 number stands for an interval of reals, those that are rounded to it. Among the
decimal fractions in that interval the coarsest are the shortest to write. The grid of multiples
of `10 ^ p` is made finer step by step; on the first grid that has a point in the interval, the
point nearest to the number is taken. Only the two grid points beside the number matter, since the
interval holds a grid point only if it holds one of these.

Main definitions:

* `Decimal.Interval`, `Interval.ofPattern` — the interval that is rounded to a number;
* `Interval.onGrid?` — the grid point nearest to the number among those in its interval;
* `Decimal.shortest` — the digits and the power of ten;
* `Decimal.text` — a number written out with these digits, without an exponent.
-/

import Vantage.Decimal.Rounding

set_option relaxedAutoImplicit false
set_option autoImplicit false

namespace Vantage.Decimal

/-- The reals that are rounded to a number, in units of `2 ^ exponent`. -/
structure Interval where
  low : Nat
  number : Nat
  high : Nat
  exponent : Int
  /-- The ends belong to the interval. -/
  closed : Bool

namespace Interval

/-- The interval of the positive finite number with the given bit pattern. Its ends lie half way to
the neighbouring numbers; below a power of two the neighbour is half as far. -/
def ofPattern (bits : Nat) : Interval :=
  let biased := bits / binade
  let fraction := bits % binade
  let significand := if biased = 0 then fraction else fraction + binade
  { low := 4 * significand - (if fraction = 0 ∧ 1 < biased then 1 else 2)
    number := 4 * significand
    high := 4 * significand + 2
    exponent := (max biased 1 : Nat) - 1077
    closed := significand % 2 = 0 }

/-- A point `n * 10 ^ p` of the interval that is nearest to the number among the multiples of
`10 ^ p`, given by `n`. Of two points equally near the greater one is taken. -/
def onGrid? (i : Interval) (p : Int) : Option Nat :=
  let scale := Nat.pow 2 i.exponent.toNat * Nat.pow 10 (-p).toNat
  let den := Nat.pow 2 (-i.exponent).toNat * Nat.pow 10 p.toNat
  let n := i.number * scale / den
  let inside (m : Nat) : Bool :=
    if i.closed then i.low * scale ≤ m * den && m * den ≤ i.high * scale
    else i.low * scale < m * den && m * den < i.high * scale
  let nearer : Bool := 2 * (i.number * scale) < (2 * n + 1) * den
  if inside n && (nearer || !inside (n + 1)) then some n
  else if inside (n + 1) then some (n + 1)
  else none

end Interval

/-- The digits, as a number, and the power of ten of the shortest decimal fraction that is rounded
to the number with the given bit pattern. -/
def shortest (bits : Nat) : Nat × Int :=
  let i := Interval.ofPattern bits
  ((List.range 650).findSome? fun (k : Nat) =>
    let p : Int := 309 - (k : Int)
    (i.onGrid? p).map fun n => (n, p)).getD (0, 0)

/-- Digits with the decimal point in its place: zeros fill up to the point on either side. -/
def positional (n : Nat) (p : Int) : List Char :=
  let digits := Nat.toDigits 10 n
  if 0 ≤ p then digits ++ List.replicate p.toNat '0'
  else
    let places := (-p).toNat
    let padded := List.replicate (places + 1 - digits.length) '0' ++ digits
    padded.take (padded.length - places) ++ '.' :: padded.drop (padded.length - places)

/-- A number written out in full with the fewest digits that tell it from all others. -/
def text (x : Float) : String :=
  let bits := x.toBits.toNat
  let magnitude := bits % signBit
  let sign := if bits < signBit then [] else ['-']
  if x.isNaN then "NaN"
  else if magnitude = infinite then String.ofList (sign ++ ['i', 'n', 'f'])
  else if magnitude = 0 then String.ofList (sign ++ ['0'])
  else
    let (n, p) := shortest magnitude
    String.ofList (sign ++ positional n p)

end Vantage.Decimal
