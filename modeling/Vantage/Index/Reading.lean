/-
**Ids, fingerprints and radii given as texts.**

White space around a text does not matter. An id is a whole number with an optional sign, a
fingerprint a whole number with an optional plus sign, in decimal digits or, after `0x`, in
hexadecimal ones; both must fit into 64 bits. A radius is a numeral that is rounded to a finite
number that is not below zero.

Main definitions:

* `Vantage.readId`, `Vantage.readFingerprint`, `Vantage.readRadius` — what a text denotes, or the
  fault that names the text.
-/

import Vantage.Decimal.Numeral
import Vantage.Index.Fault
import Vantage.Text.Blank

set_option relaxedAutoImplicit false
set_option autoImplicit false

namespace Vantage

/-! ### Ids -/

/-- Whether a number is an id: whether it fits into 64 bits with a sign. -/
def isId (n : Int) : Bool := Int64.minValue.toInt ≤ n && n ≤ Int64.maxValue.toInt

/-- The id that a text without white space around it denotes. -/
def idOf? (cs : List Char) : Option Int64 :=
  ((Decimal.signedOf? cs).filter isId).map Int64.ofInt

/-- Reads an id. -/
def readId (text : String) : Except IndexFault Int64 :=
  match idOf? (Text.trim text.toList) with
  | some id => .ok id
  | none => .error (.badId text)

/-! ### Fingerprints -/

/-- The number that a text denotes: in hexadecimal digits after `0x`, in decimal ones otherwise. -/
def numberOf? : List Char → Option Nat
  | '0' :: 'x' :: digits => Decimal.unsignedOf? 16 digits
  | '0' :: 'X' :: digits => Decimal.unsignedOf? 16 digits
  | digits => Decimal.unsignedOf? 10 digits

/-- The fingerprint that a text without white space around it denotes. -/
def fingerprintOf? (cs : List Char) : Option UInt64 :=
  ((numberOf? cs).filter (· < UInt64.size)).map UInt64.ofNat

/-- Reads a fingerprint. -/
def readFingerprint (text : String) : Except IndexFault UInt64 :=
  match fingerprintOf? (Text.trim text.toList) with
  | some value => .ok value
  | none => .error (.badFingerprint text)

/-! ### Radii -/

/-- The radius that a numeral denotes. The rounded amount must be finite, and a negative number is
a radius only if it is rounded to zero; the zero is then a negative one. -/
def Decimal.Numeral.radius? (x : Decimal.Numeral) : Option Float :=
  if x.pattern < Decimal.infinite then
    if !x.negative then some (Float.ofBits (UInt64.ofNat x.pattern))
    else if x.pattern = 0 then some (Float.ofBits (UInt64.ofNat Decimal.signBit))
    else none
  else none

/-- The radius that a text without white space around it denotes. -/
def radiusOf? (cs : List Char) : Option Float :=
  (Decimal.Numeral.ofText? cs).bind Decimal.Numeral.radius?

/-- Reads a radius. -/
def readRadius (text : String) : Except IndexFault Float :=
  match radiusOf? (Text.trim text.toList) with
  | some radius => .ok radius
  | none => .error (.badRadius text)

end Vantage
