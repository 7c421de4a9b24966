/-
**Words and bytes: writing and reading back.**

Main results:

* `numberOf_bytesOf` — reading back what was written gives the number, up to the bytes that
  were kept;
* `numberOf_lt` — the number is below the one that would need a further byte;
* `wordOf_wordBytes`, `wordBytes_wordOf` — a word survives being written and read, and eight bytes
  survive being read and written.
-/

import Mathlib
import Vantage.Words

set_option relaxedAutoImplicit false
set_option autoImplicit false

namespace Vantage

/-- Reading back what was written gives the number, up to the bytes that were kept. -/
theorem numberOf_bytesOf (w n : Nat) : numberOf (bytesOf w n) = n % 256 ^ w := by
  induction w generalizing n with
  | zero => simp [bytesOf, numberOf, Nat.mod_one]
  | succ w ih =>
    have h : (UInt8.ofNat (n % 256)).toNat = n % 256 := by simp
    rw [bytesOf, numberOf, ih, h, Nat.pow_succ', Nat.mod_mul]

/-- A number is below the one that would need a further byte. -/
theorem numberOf_lt (bytes : List UInt8) : numberOf bytes < 256 ^ bytes.length := by
  induction bytes with
  | nil => simp [numberOf]
  | cons b bytes ih =>
    have hb : b.toNat < 256 := b.toNat_lt
    rw [numberOf, List.length_cons, Nat.pow_succ']
    omega

/-- A word survives being written and read. -/
@[simp] theorem wordOf_wordBytes (x : UInt64) : wordOf (wordBytes x) = x := by
  have hx : x.toNat < 256 ^ 8 := x.toNat_lt
  rw [wordOf, wordBytes, numberOf_bytesOf, Nat.mod_eq_of_lt hx, UInt64.ofNat_toNat]

/-- Eight bytes survive being read and written. -/
theorem wordBytes_wordOf {bytes : List UInt8} (h : bytes.length = 8) :
    wordBytes (wordOf bytes) = bytes := by
  have hlt : numberOf bytes < 2 ^ 64 := by
    have := numberOf_lt bytes
    rw [h] at this
    exact this
  have hn : (UInt64.ofNat (numberOf bytes)).toNat = numberOf bytes := by
    rw [UInt64.toNat_ofNat', Nat.mod_eq_of_lt hlt]
  have := bytesOf_numberOf bytes
  rwa [h, ← hn] at this

end Vantage
