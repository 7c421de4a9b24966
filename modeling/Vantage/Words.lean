/-
**64-bit words as eight bytes, least significant first.**

Main definitions:

* `Vantage.bytesOf`, `Vantage.numberOf` — numbers as a fixed count of bytes, and back;
* `Vantage.wordBytes`, `Vantage.wordOf` — 64-bit words.

Main results:

* `length_bytesOf` — the number of bytes is the one asked for;
* `bytesOf_numberOf` — writing back what was read gives the bytes.
-/

set_option relaxedAutoImplicit false
set_option autoImplicit false

namespace Vantage

/-- The `w` lowest bytes of a number, least significant first. -/
def bytesOf : Nat → Nat → List UInt8
  | 0, _ => []
  | w + 1, n => UInt8.ofNat (n % 256) :: bytesOf w (n / 256)

/-- The number with the given bytes, least significant first. -/
def numberOf : List UInt8 → Nat
  | [] => 0
  | b :: bytes => b.toNat + 256 * numberOf bytes

@[simp] theorem length_bytesOf (w n : Nat) : (bytesOf w n).length = w := by
  induction w generalizing n with
  | zero => rfl
  | succ w ih => simp [bytesOf, ih]

/-- Writing back what was read gives the bytes. -/
theorem bytesOf_numberOf (bytes : List UInt8) : bytesOf bytes.length (numberOf bytes) = bytes := by
  induction bytes with
  | nil => rfl
  | cons b bytes ih =>
    have hb : b.toNat < 256 := b.toNat_lt
    have h₁ : (b.toNat + 256 * numberOf bytes) % 256 = b.toNat := by omega
    have h₂ : (b.toNat + 256 * numberOf bytes) / 256 = numberOf bytes := by omega
    rw [List.length_cons, bytesOf, numberOf, h₁, h₂, ih, UInt8.ofNat_toNat]

/-- The eight bytes of a word, least significant first. -/
def wordBytes (x : UInt64) : List UInt8 := bytesOf 8 x.toNat

/-- The word with the given bytes, least significant first. -/
def wordOf (bytes : List UInt8) : UInt64 := UInt64.ofNat (numberOf bytes)

@[simp] theorem length_wordBytes (x : UInt64) : (wordBytes x).length = 8 := length_bytesOf 8 _

end Vantage
