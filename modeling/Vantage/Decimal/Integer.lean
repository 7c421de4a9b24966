/-
**Whole numbers written in digits.**

Main definitions:

* `Decimal.digit?` — the value of a digit in a base up to sixteen;
* `Decimal.natOf?` — one or more digits as a number, however many leading zeros there are;
* `Decimal.unsignedOf?`, `Decimal.signedOf?` — the same with an optional plus sign, or with an
  optional sign.
-/

set_option relaxedAutoImplicit false
set_option autoImplicit false

namespace Vantage.Decimal

/-- The value of a digit in a base up to sixteen; letters count in either case. -/
def digit? (base : Nat) (c : Char) : Option Nat :=
  let value :=
    if '0' ≤ c ∧ c ≤ '9' then some (c.toNat - '0'.toNat)
    else if 'a' ≤ c ∧ c ≤ 'f' then some (c.toNat - 'a'.toNat + 10)
    else if 'A' ≤ c ∧ c ≤ 'F' then some (c.toNat - 'A'.toNat + 10)
    else none
  value.filter (· < base)

/-- Appends digits to a number. -/
def append? (base : Nat) (n : Nat) : List Char → Option Nat
  | [] => some n
  | c :: rest => (digit? base c).bind fun v => append? base (base * n + v) rest

/-- The number that one or more digits denote. -/
def natOf? (base : Nat) (cs : List Char) : Option Nat :=
  if cs.isEmpty then none else append? base 0 cs

/-- The number that digits denote, with an optional plus sign in front. -/
def unsignedOf? (base : Nat) : List Char → Option Nat
  | '+' :: digits => natOf? base digits
  | digits => natOf? base digits

/-- The number that decimal digits denote, with an optional sign in front. -/
def signedOf? : List Char → Option Int
  | '-' :: digits => (natOf? 10 digits).map fun n => -(n : Int)
  | '+' :: digits => (natOf? 10 digits).map Int.ofNat
  | digits => (natOf? 10 digits).map Int.ofNat

end Vantage.Decimal
