/-
**Multiples of a number, and their whole parts.**

Every natural number, and every quotient of two, has the positive sign when it is rounded.  Larger
multiples of such a number are not smaller, since rounding keeps the order of the exact products,
and the whole part of a number, which is cut off from its ticks, keeps the order too.

Main results:

* `Vantage.Binary64.hasSign_div_ofNat` — a quotient of natural numbers is a number with the positive
  sign;
* `Vantage.Binary64.mul_le_mul_of_le` — **multiples are in the order of their factors**;
* `Vantage.Binary64.toUInt64_le_toUInt64` — **whole parts keep the order**.
-/

import Vantage.Proofs.Binary64.Naturals
import Vantage.Proofs.Binary64.Nearest

set_option relaxedAutoImplicit false
set_option autoImplicit false

namespace Vantage.Binary64

open Float.Model (UnpackedFloat Format)
open Float.Model.UnpackedFloat

/-! ### Signs of quotients and products -/

/-- The product of two finite numbers with the positive sign. -/
theorem hasSign_settled_mul {m n : ℕ} {e f : ℤ} (hm : 0 < m) (hn : 0 < n) :
    HasSign .positive (settled (UnpackedFloat.mul Format.binary64 (.finite .positive m e hm)
      (.finite .positive n f hn))) :=
  hasSign_settled_roundWithAccuracy _ _ _ _

/-- Infinities and zeros keep their sign when they are packed. -/
theorem hasSign_settled_special (s : Sign) :
    HasSign s (settled (.infinity s)) ∧ HasSign s (settled (.zero s)) := by
  rw [settled_infinity, settled_eq_self (u := .zero s) ⟨trivial, trivial⟩]
  exact ⟨rfl, rfl⟩

/-- Every natural number, rounded if need be, has the positive sign. -/
theorem hasSign_ofNat (n : ℕ) : HasSign .positive (parts (Float.ofNat n)) := by
  rcases lt_or_ge n (2 ^ 53) with hlt | hge
  · rcases Nat.eq_zero_or_pos n with rfl | hpos
    · rw [parts_zero]
      rfl
    · obtain ⟨r, t, hr, hparts, -⟩ := parts_ofNat hpos hlt
      rw [hparts]
      rfl
  · have hlarge : parts (Float.ofNat n) =
        settled (UnpackedFloat.ofScientific Format.binary64 n 0) := by
      unfold Float.ofNat
      change parts (Float.ofScientific n false 0) = _
      unfold Float.ofScientific
      rw [dif_neg (by omega)]
      rfl
    have hbits : (2 : ℤ) ^ Format.binary64.exponentBits = 2048 := rfl
    rw [hlarge, UnpackedFloat.ofScientific, dif_neg (by omega), if_neg (by omega),
      if_neg (by omega), if_pos le_rfl]
    exact hasSign_settled_mul _ _

/-- The quotient of two natural numbers, rounded if need be. -/
theorem hasSign_div_ofNat (n : ℕ) {k : ℕ} (hk : 0 < k) (hk53 : k < 2 ^ 53) :
    HasSign .positive (parts (Float.ofNat n / Float.ofNat k)) := by
  obtain ⟨r, t, hr, hparts, -⟩ := parts_ofNat hk hk53
  change HasSign .positive (settled (UnpackedFloat.div Format.binary64 (parts (Float.ofNat n))
    (parts (Float.ofNat k))))
  rw [hparts]
  rcases (hasSign_ofNat n).cases with h | h | ⟨m, e, hm, h⟩ <;> rw [h]
  · exact (hasSign_settled_special .positive).1
  · exact (hasSign_settled_special .positive).2
  · exact hasSign_settled_roundWithAccuracy _ _ _ _

section

variable {x : Float} {i j : ℕ}

theorem parts_mul (x y : Float) :
    parts (x * y) = settled (UnpackedFloat.mul Format.binary64 (parts x) (parts y)) := rfl

/-- A multiple of a number with the positive sign. -/
theorem hasSign_mul (hx : HasSign .positive (parts x)) (hi : 0 < i) (hi53 : i < 2 ^ 53) :
    HasSign .positive (parts (Float.ofNat i * x)) := by
  obtain ⟨r, t, hr, hparts, -⟩ := parts_ofNat hi hi53
  rw [parts_mul, hparts]
  rcases hx.cases with h | h | ⟨m, e, hm, h⟩ <;> rw [h]
  · exact (hasSign_settled_special .positive).1
  · exact (hasSign_settled_special .positive).2
  · exact hasSign_settled_mul _ _

/-- The product of the mantissa of a natural number with another one has 53 bits at least. -/
theorem le_log2_mul {n r m : ℕ} {t : ℤ} (hn : 0 < n) (hn53 : n < 2 ^ 53) (hr : 0 < r)
    (h : Rounded r t) (hval : r * 2 ^ (t + 1074).toNat = n * 2 ^ 1074) (hm : 0 < m) :
    52 ≤ (r * m).log2 := by
  have ht := (exponent_bounds hn hn53 h hval).1
  have hfull : 2 ^ 52 ≤ r := h.2.2.resolve_right (by omega)
  exact (Nat.le_log2 (Nat.mul_pos hr hm).ne').2 (hfull.trans (Nat.le_mul_of_pos_right r hm))

/-- **Larger multiples of a number with the positive sign are not smaller.** -/
theorem mul_le_mul_of_le (hx : HasSign .positive (parts x)) (hi : 0 < i) (hij : i ≤ j)
    (hj : j < 2 ^ 53) : Float.ofNat i * x ≤ Float.ofNat j * x := by
  rw [le_iff_ticks (hasSign_mul hx hi (by omega)).isNaN (hasSign_mul hx (by omega) hj).isNaN]
  obtain ⟨r, t, hr, hpi, hri, -, hvi⟩ := parts_ofNat hi (hij.trans_lt hj)
  obtain ⟨r', t', hr', hpj, hrj, -, hvj⟩ := parts_ofNat (hi.trans_le hij) hj
  rw [ticks, ticks, parts_mul, parts_mul, hpi, hpj]
  rcases hx.cases with h | h | ⟨m, e, hm, h⟩
  · rw [h]
    exact le_rfl
  · rw [h]
    exact le_rfl
  · have hpacked := packed_parts x
    rw [h] at hpacked ⊢
    obtain ⟨⟨hm53, he, -⟩, -⟩ := hpacked
    have hlog := le_log2_mul hi (hij.trans_lt hj) hr hri hvi hm
    have hlog' := le_log2_mul (hi.trans_le hij) hj hr' hrj hvj hm
    have hi' := hri.2.1
    have hj' := hrj.2.1
    refine round_le_round (l := e - 1074) (Nat.mul_pos hr hm) (Nat.mul_pos hr' hm) (by omega)
      (by omega) (by omega) (by omega) ?_
    rw [show (t + e - (e - 1074)).toNat = (t + 1074).toNat by omega,
      show (t' + e - (e - 1074)).toNat = (t' + 1074).toNat by omega, mul_right_comm,
      mul_right_comm r', hvi, hvj]
    exact Nat.mul_le_mul_right _ (Nat.mul_le_mul_right _ hij)

/-! ### Whole parts -/

theorem two_pow_le_div {a b c : ℕ} (h : a + b ≤ c) : 2 ^ a ≤ 2 ^ c / 2 ^ b := by
  rw [Nat.le_div_iff_mul_le (by positivity), ← pow_add]
  exact Nat.pow_le_pow_right (by norm_num) h

theorem toNat_ofNatClamp (n : ℕ) : (UInt64.ofNatClamp n).toNat = min n (2 ^ 64 - 1) := by
  rcases lt_or_ge n UInt64.size with hlt | hge
  · rw [UInt64.toNat_ofNatClamp_of_lt hlt]
    exact (min_eq_left (Nat.le_sub_one_of_lt hlt)).symm
  · rw [UInt64.toNat_ofNatClamp_of_le hge]
    exact (min_eq_right ((Nat.sub_le _ _).trans hge)).symm

/-- Rounding to zero: bits are put behind the mantissa, or cut off. -/
theorem roundToInt_positive (m : ℕ) {e : ℤ} (he : -1074 ≤ e) :
    roundToInt .positive m e = (m * 2 ^ (e + 1074).toNat / 2 ^ 1074 : ℕ) := by
  have hround : roundToInt .positive m e = (m * 2 ^ e.toNat / 2 ^ (-e).toNat : ℕ) := by
    have hshift : (-(e - (e.toNat : ℤ))).toNat = (-e).toNat := by omega
    simp only [roundToInt, decreaseExponent, shiftToExponent, sub_zero, zero_sub, hshift,
      mantissa_shiftRight, Nat.shiftLeft_eq]
    rfl
  rw [hround]
  congr 1
  rcases le_or_gt 0 e with hpos | hneg
  · rw [show (-e).toNat = 0 by omega, pow_zero, Nat.div_one,
      show (e + 1074).toNat = e.toNat + 1074 by omega, pow_add, ← mul_assoc,
      Nat.mul_div_cancel _ (by positivity)]
  · have hplace : 1074 = (-e).toNat + (e + 1074).toNat := by omega
    rw [show e.toNat = 0 by omega, pow_zero, mul_one]
    conv_rhs => rw [hplace, pow_add, Nat.mul_div_mul_right _ _ (by positivity)]

/-- The whole part of a number with the positive sign, as it is read off its ticks; words end at
`2 ^ 64`. -/
theorem toNat_toUInt64 (hx : HasSign .positive (parts x)) :
    x.toUInt64.toNat = min ((ticks x).toNat / 2 ^ 1074) (2 ^ 64 - 1) := by
  have hword : x.toUInt64 =
      UInt64.ofNatClamp (UnpackedFloat.toInt 0 (UInt64.size - 1) (parts x)).toNat := rfl
  have hpacked := packed_parts x
  rw [hword, toNat_ofNatClamp, ticks]
  rcases hx.cases with h | h | ⟨m, e, hm, h⟩ <;> rw [h] at hpacked ⊢
  · have hlarge : 2 ^ 64 ≤ limit / 2 ^ 1074 := by
      rw [limit, limitPlace_eq]
      exact two_pow_le_div (by norm_num)
    rw [ticksOf_infinity_positive, Int.toNat_natCast, min_eq_right ((Nat.sub_le _ 1).trans hlarge)]
    exact min_self _
  · rw [ticksOf_zero, Int.toNat_zero, Nat.zero_div]
    rfl
  · rw [ticksOf, UnpackedFloat.toInt, roundToInt_positive m hpacked.rounded.2.1, Int.toNat_natCast,
      Sign.apply, Int.toNat_natCast]

/-- **Whole parts keep the order.** -/
theorem toUInt64_le_toUInt64 {y : Float} (hx : HasSign .positive (parts x))
    (hy : HasSign .positive (parts y)) (h : x ≤ y) : x.toUInt64.toNat ≤ y.toUInt64.toNat := by
  rw [le_iff_ticks hx.isNaN hy.isNaN] at h
  rw [toNat_toUInt64 hx, toNat_toUInt64 hy]
  exact min_le_min_right _ (Nat.div_le_div_right (Int.toNat_le_toNat h))

end

end Vantage.Binary64
