/-
**Bit patterns in order.**

The bit pattern of a binary64 number is a sign, an exponent and a mantissa, in this order from the
high bits to the low ones.  Without its sign the pattern is a natural number, and a number of larger
magnitude has the larger one: the infinities, whose exponent is the largest, come last.  So the rank
of a number by its pattern, read as sign and magnitude, refines the order of the numbers; only the
two zeros, which are equal, have different ranks.

Main definitions:

* `Vantage.Binary64.patternTicks` — the ticks that a pattern without sign stands for;
* `Vantage.Binary64.signOf` — the sign of a pattern.

Main results:

* `Vantage.Binary64.ticks_eq_patternTicks` — **the ticks of a number are read off its pattern**;
* `Vantage.Binary64.le_of_bitRank_le` — a number that does not rank above another one is at most
  the other.
-/

import Vantage.Cuts
import Vantage.Proofs.Binary64.Ticks

set_option relaxedAutoImplicit false
set_option autoImplicit false

namespace Vantage.Binary64

open Float.Model (UnpackedFloat Format)
open Float.Model.UnpackedFloat

/-! ### Magnitudes -/

/-- The ticks that a pattern without sign stands for. Below `2 ^ 52` it is a mantissa with the least
exponent; from there on its leading bits are an exponent and a bit is put in front of the others. -/
def patternTicks (n : ℕ) : ℕ :=
  if n < 2 ^ 52 then n else (2 ^ 52 + n % 2 ^ 52) * 2 ^ (n / 2 ^ 52 - 1)

/-- The next exponent starts above the last mantissa of this one. -/
theorem patternTicks_lt_of_div_lt {m n : ℕ} (h : m / 2 ^ 52 < n / 2 ^ 52) :
    patternTicks m < patternTicks n := by
  rw [patternTicks, patternTicks, if_neg (by omega : ¬ n < 2 ^ 52)]
  split
  next hm =>
    calc m < 2 ^ 52 * 2 ^ (n / 2 ^ 52 - 1) :=
          hm.trans_le (Nat.le_mul_of_pos_right _ (by positivity))
      _ ≤ _ := Nat.mul_le_mul_right _ (Nat.le_add_right _ _)
  next hm =>
    have hlow : m % 2 ^ 52 < 2 ^ 52 := Nat.mod_lt _ (by positivity)
    calc (2 ^ 52 + m % 2 ^ 52) * 2 ^ (m / 2 ^ 52 - 1)
        < 2 ^ 53 * 2 ^ (m / 2 ^ 52 - 1) := Nat.mul_lt_mul_of_pos_right (by omega) (by positivity)
      _ ≤ _ := two_pow_mul_le (Nat.le_add_right _ _) (by omega)

/-- A larger pattern stands for more ticks. -/
theorem patternTicks_strictMono : StrictMono patternTicks := by
  intro m n h
  rcases (Nat.div_le_div_right h.le : m / 2 ^ 52 ≤ n / 2 ^ 52).lt_or_eq with hlt | heq
  · exact patternTicks_lt_of_div_lt hlt
  · -- the exponents are equal, and the mantissas are compared
    rw [patternTicks, patternTicks]
    by_cases hm : m < 2 ^ 52
    · rw [if_pos hm, if_pos (by omega : n < 2 ^ 52)]
      exact h
    · rw [if_neg hm, if_neg (by omega : ¬ n < 2 ^ 52), heq]
      exact Nat.mul_lt_mul_of_pos_right (by omega) (by positivity)

theorem patternTicks_mono {m n : ℕ} (h : m ≤ n) : patternTicks m ≤ patternTicks n :=
  patternTicks_strictMono.monotone h

/-! ### The fields of a pattern -/

/-- The sign of a pattern. -/
def signOf (bits : ℕ) : Sign := if bits < 2 ^ 63 then .positive else .negative

section

variable (b : BitVec Format.binary64.numBits)

theorem toNat_unpackMantissa :
    (@unpackMantissa Format.binary64 b).toNat = b.toNat % 2 ^ 63 % 2 ^ 52 := by
  have : (@unpackMantissa Format.binary64 b).toNat = b.toNat % 2 ^ 52 := by
    simp [unpackMantissa, BitVec.extractLsb_toNat]
  omega

theorem toNat_unpackExponent :
    (@unpackExponent Format.binary64 b).toNat = b.toNat % 2 ^ 63 / 2 ^ 52 := by
  have : (@unpackExponent Format.binary64 b).toNat = b.toNat / 2 ^ 52 % 2 ^ 11 := by
    simp [unpackExponent, BitVec.extractLsb_toNat, Nat.shiftRight_eq_div_pow]
  omega

theorem ofBitVec_unpackSign :
    Sign.ofBitVec (@unpackSign Format.binary64 b) = signOf b.toNat := by
  have hb : b.toNat < 2 ^ 64 := b.isLt
  have hbit : (@unpackSign Format.binary64 b).toNat = b.toNat / 2 ^ 63 := by
    have : (@unpackSign Format.binary64 b).toNat = b.toNat / 2 ^ 63 % 2 := by
      simp [unpackSign, BitVec.extractLsb_toNat, Nat.shiftRight_eq_div_pow]
    omega
  rw [Sign.ofBitVec, signOf]
  congr 1
  rw [← BitVec.toNat_inj, hbit, eq_iff_iff]
  change b.toNat / 2 ^ 63 = 0 ↔ _
  omega

/-- **The ticks of an unpacked pattern** are those of its magnitude, with its sign. -/
theorem ticksOf_unpack (h : (unpack Format.binary64 b).isNaN = false) :
    ticksOf (unpack Format.binary64 b) =
      (signOf b.toNat).apply (patternTicks (b.toNat % 2 ^ 63) : ℕ) := by
  have hmantissa := toNat_unpackMantissa b
  have hexponent := toNat_unpackExponent b
  generalize b.toNat % 2 ^ 63 = n at hmantissa hexponent ⊢
  have hbias : ((Format.binary64.exponentBias : ℤ) +
      Format.binary64.mantissaBitsWithoutImplicit) = 1075 := rfl
  have happ : (1#1 ++ @unpackMantissa Format.binary64 b).toNat = 2 ^ 52 + n % 2 ^ 52 := by
    rw [BitVec.toNat_append, ← Nat.shiftLeft_add_eq_or_of_lt (BitVec.isLt _), hmantissa]
    simp [Nat.shiftLeft_eq]
  unfold unpack at h ⊢
  simp only [hbias, ofBitVec_unpackSign] at h ⊢
  split
  next hinf =>
    have hlarge : n / 2 ^ 52 = 2047 := by
      rw [← hexponent, hinf]
      rfl
    rw [if_pos hinf] at h
    split
    next hzero =>
      have hnone : n % 2 ^ 52 = 0 := by
        rw [← hmantissa, hzero]
        rfl
      rw [ticksOf, patternTicks, if_neg (by omega), hnone, hlarge, limit, limitPlace_eq, add_zero,
        ← pow_add]
    next hzero =>
      rw [if_neg hzero] at h
      cases h
  next =>
    split
    next hleast =>
      have hsmall : n / 2 ^ 52 = 0 := by
        rw [← hexponent, hleast]
        rfl
      rw [patternTicks, if_pos (by omega)]
      split
      next hzero =>
        have hnone : n % 2 ^ 52 = 0 := by
          rw [← hmantissa, hzero]
          rfl
        rw [ticksOf, show n = 0 by omega]
        cases signOf b.toNat <;> rfl
      next =>
        rw [ticksOf, hmantissa, hexponent, hsmall]
        congr 2
        change n % 2 ^ 52 * 2 ^ 0 = n
        omega
    next hleast =>
      have hnormal : n / 2 ^ 52 ≠ 0 := by
        intro heq
        exact hleast (BitVec.eq_of_toNat_eq (hexponent.trans heq))
      rw [ticksOf, patternTicks, if_neg (by omega), happ, hexponent]
      congr 4
      omega

end

/-- **The ticks of a number are read off its pattern.** -/
theorem ticks_eq_patternTicks {x : Float} (hx : x.isNaN = false) :
    ticks x = (signOf x.toBits.toNat).apply (patternTicks (x.toBits.toNat % 2 ^ 63) : ℕ) :=
  ticksOf_unpack _ hx

/-! ### Ranks -/

/-- The rank of a pattern: those with the sign come first, in descending order. -/
theorem toNat_bitRank (x : Float) :
    (bitRank x).toNat =
      if x.toBits.toNat < 2 ^ 63 then x.toBits.toNat + 2 ^ 63 else 2 ^ 64 - 1 - x.toBits.toNat := by
  have hlt := x.toBits.toNat_lt
  unfold bitRank
  simp only [UInt64.lt_iff_toNat_lt]
  change (if x.toBits.toNat < 2 ^ 63 then _ else _ : UInt64).toNat = _
  split
  next h =>
    rw [UInt64.toNat_add, show (0x8000000000000000 : UInt64).toNat = 2 ^ 63 from rfl]
    omega
  next => exact UInt64.toNat_not _

/-- **A number that does not rank above another one is at most the other.** -/
theorem le_of_bitRank_le {x y : Float} (hx : x.isNaN = false) (hy : y.isNaN = false)
    (h : bitRank x ≤ bitRank y) : x ≤ y := by
  rw [UInt64.le_iff_toNat_le, toNat_bitRank, toNat_bitRank] at h
  have hxlt := x.toBits.toNat_lt
  have hylt := y.toBits.toNat_lt
  rw [le_iff_ticks hx hy, ticks_eq_patternTicks hx, ticks_eq_patternTicks hy, signOf, signOf]
  generalize x.toBits.toNat = a at *
  generalize y.toBits.toNat = b at *
  by_cases ha : a < 2 ^ 63 <;> by_cases hb : b < 2 ^ 63 <;>
    simp only [ha, hb, if_true, if_false, Sign.apply] at h ⊢
  · have := patternTicks_mono (show a % 2 ^ 63 ≤ b % 2 ^ 63 by omega)
    omega
  · omega
  · omega
  · -- both have the sign, so the one that ranks lower has the larger magnitude
    have := patternTicks_mono (show b % 2 ^ 63 ≤ a % 2 ^ 63 by omega)
    omega

end Vantage.Binary64
