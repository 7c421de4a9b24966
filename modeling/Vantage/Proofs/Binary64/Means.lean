/-
**Means of binary64 numbers in order.**

A mean is half of a sum.  Halving a number is exact unless the last bit of a mantissa with the least
exponent is lost, and then a tie goes to the even mantissa; so it keeps the order, as sums do.

Main results:

* `Vantage.Binary64.roundsTo_ticks_half` — a half has half as many ticks, rounded;
* `Vantage.Binary64.half_le_half` — halving keeps the order;
* `Vantage.Binary64.ticks_mean_of_short`, `Vantage.Binary64.ticks_mean_self` — a mean with few bits
  is exact, and so is the mean of a number and itself;
* `Vantage.Binary64.add_le_add_of_le` — sums of numbers in order are in order;
* `Vantage.Binary64.mean_le_mean` — **means of numbers in order are in order**;
* `Vantage.Binary64.mean_between` — a mean lies between the two numbers.
-/

import Vantage.Proofs.Binary64.Naturals
import Vantage.Proofs.Binary64.SumOrder

set_option relaxedAutoImplicit false
set_option autoImplicit false

namespace Vantage.Binary64

open Float.Model (UnpackedFloat Format)
open Float.Model.UnpackedFloat

/-! ### Division by two -/

theorem parts_two : parts (Float.ofNat 2) = .finite .positive (2 ^ 52) (-51) (by norm_num) := by
  rw [ofNat_eq_mul_one (by norm_num)]
  rfl

/-- The exponent aimed at, and the bits that are put behind the mantissa, when a number is divided
by two. -/
theorem divCore_two {m : ℕ} {e t : ℤ} {k : ℕ}
    (ht : min (e + 51) (max ((m.log2 : ℤ) + 1 + e - 2 - 53) (-1074)) = t)
    (hk : (e + 51 - t).toNat = k) :
    divCore Format.binary64 m e (2 ^ 52) (-51) =
      (m * 2 ^ k / 2 ^ 52, t, accuracyOfFraction (m * 2 ^ k % 2 ^ 52) (2 ^ 52)) := by
  have htwo : ((52 : ℕ) : ℤ) + 1 + -51 = 2 := rfl
  simp only [divCore, targetExponent_eq, Float.Model.totalExponent, Nat.log2_two_pow, htwo,
    sub_neg_eq_add, ht, hk, Nat.shiftLeft_eq]

/-- Rounding a mantissa of at most 52 bits with the least exponent: nothing is shifted. -/
theorem roundWithAccuracy_least (s : Sign) {m : ℕ} (hm52 : m < 2 ^ 52) (a : Accuracy) :
    ticksOf (settled (roundWithAccuracy Format.binary64 s m (-1074) a)) =
      s.apply (a.roundToNearestEven m : ℕ) := by
  have htarget : ∀ n : ℕ, n < 2 ^ 53 →
      Format.binary64.targetExponent (Float.Model.totalExponent n (-1074)) = -1074 := by
    intro n hn
    rw [targetExponent_eq, Float.Model.totalExponent]
    rcases Nat.eq_zero_or_pos n with rfl | hpos
    · rfl
    · have := (Nat.log2_lt hpos.ne').2 hn
      omega
  have hfirst : shiftToTargetExponent Format.binary64 m (-1074) a =
      (ExtendedMantissa.ofMantissaAndAccuracy m a, -1074) := by
    rw [shiftToTargetExponent, htarget m (by omega)]
    rfl
  have hrounded : (ExtendedMantissa.ofMantissaAndAccuracy m a).roundedMantissa =
      a.roundToNearestEven m := by
    rcases a with _ | (_ | _ | _) <;> rfl
  have hle : a.roundToNearestEven m ≤ m + 1 := by
    rcases a with _ | (_ | _ | _) <;> simp only [Accuracy.roundToNearestEven] <;> omega
  have hsecond : shiftToTargetExponent Format.binary64 (a.roundToNearestEven m) (-1074) .exact =
      (⟨a.roundToNearestEven m, false, false⟩, -1074) := by
    rw [shiftToTargetExponent, htarget _ (by omega)]
    rfl
  simp only [roundWithAccuracy, hfirst, hrounded, hsecond]
  split
  next hzero =>
    rw [settled_eq_self (u := .zero s) ⟨trivial, trivial⟩, ticksOf_zero, hzero]
    cases s <;> rfl
  next hne =>
    have hpacked : Packed (.finite s (a.roundToNearestEven m) (-1074) (Nat.pos_of_ne_zero hne)) :=
      ⟨⟨by omega, le_rfl, .inr rfl⟩, show (-1074 : ℤ) ≤ 971 by norm_num⟩
    rw [settled_eq_self hpacked, ticksOf]
    congr 2
    exact Nat.mul_one _

/-- Half a mantissa with the least exponent: the last bit is lost, and a tie goes to the even
mantissa. -/
theorem div_two_least (s : Sign) {m : ℕ} (hm : 0 < m) (hm53 : m < 2 ^ 53) :
    RoundsTo 2 (s.apply m) (ticksOf (settled (UnpackedFloat.div Format.binary64
      (.finite s m (-1074) hm) (.finite .positive (2 ^ 52) (-51) (by norm_num))))) := by
  have hlog : m.log2 < 53 := (Nat.log2_lt hm.ne').2 hm53
  have hsign : s / .positive = s := by cases s <;> rfl
  have hhalf : m * 2 ^ 51 / 2 ^ 52 = m / 2 := by omega
  have hrest : m * 2 ^ 51 % 2 ^ 52 = m % 2 * 2 ^ 51 := by omega
  simp only [UnpackedFloat.div, hsign,
    divCore_two (m := m) (e := -1074) (t := -1074) (k := 51) (by omega) rfl, hhalf, hrest]
  rw [roundWithAccuracy_least s (by omega)]
  refine RoundsTo.apply ?_ s
  rcases Nat.mod_two_eq_zero_or_one m with heven | hodd
  · rw [heven, zero_mul, accuracyOfFraction, if_pos rfl, Accuracy.roundToNearestEven]
    exact .of_eq two_pos (by push_cast; omega)
  · -- the bit that is lost is half of the last one that is kept
    rw [hodd, one_mul, accuracyOfFraction, if_neg (by norm_num),
      compare_eq_iff_eq.2 (by norm_num : 2 * 2 ^ 51 = 2 ^ 52), Accuracy.roundToNearestEven]
    exact ⟨by push_cast; omega, by push_cast; omega, fun _ => by omega⟩

/-- Half a mantissa of 53 bits: the exponent goes down by one, and if it is the least but one, the
mantissa takes its place without losing a bit. -/
theorem div_two_normal (s : Sign) {m : ℕ} {e : ℤ} (hm : 0 < m) (hfull : 2 ^ 52 ≤ m)
    (hm53 : m < 2 ^ 53) (he : -1074 < e) (hfits : e ≤ 971) :
    ticksOf (settled (UnpackedFloat.div Format.binary64
      (.finite s m e hm) (.finite .positive (2 ^ 52) (-51) (by norm_num)))) * 2 =
      s.apply (m * 2 ^ (e + 1074).toNat : ℕ) := by
  have hlog : m.log2 = 52 := (Nat.log2_eq_iff hm.ne').2 ⟨hfull, hm53⟩
  have hsign : s / .positive = s := by cases s <;> rfl
  -- one more bit is computed, or none if the exponent is the least but one
  obtain ⟨j, hj⟩ : ∃ j : ℕ, j ≤ 1 ∧ max (e - 2) (-1074) = e - 1 - j :=
    ⟨(e - 1 - max (e - 2) (-1074)).toNat, by omega⟩
  have hquot : m * 2 ^ (52 + j) / 2 ^ 52 = m * 2 ^ j := by
    rw [pow_add, Nat.mul_left_comm, Nat.mul_div_cancel_left _ (by positivity)]
  have hrest : m * 2 ^ (52 + j) % 2 ^ 52 = 0 := by
    rw [pow_add, Nat.mul_left_comm, Nat.mul_mod_right]
  simp only [UnpackedFloat.div, hsign, divCore_two (m := m) (e := e) (t := e - 1 - j) (k := 52 + j)
    (by omega) (by omega), hquot, hrest, accuracyOfFraction, if_true]
  obtain ⟨r, t, hr, hround, hrounded, hnear⟩ := near_roundWithAccuracy s
    (m := m * 2 ^ j) (e := e - 1 - j) (by positivity) (by omega) (by
      rw [targetExponent_eq, Float.Model.totalExponent, log2_mul_two_pow hm.ne']
      omega)
  have hticks : m * 2 ^ j * 2 ^ (e - 1 - j + 1074).toNat = m * 2 ^ (e - 1 + 1074).toNat := by
    rw [mul_assoc, ← pow_add]
    congr 2
    omega
  rw [hticks] at hnear
  have hval := hnear.eq_of_short ((short_of_lt hm53).mul_two_pow _)
  have htwice : m * 2 ^ (e + 1074).toNat = m * 2 ^ (e - 1 + 1074).toNat * 2 := by
    rw [show (e + 1074).toNat = (e - 1 + 1074).toNat + 1 by omega, pow_succ, mul_assoc]
  have hlim := ticks_lt_limit ⟨hm53, he.le, .inl hfull⟩ hfits
  rw [hround, settled, ticksOf_unpack_pack hrounded, hval, min_eq_left (by omega), htwice]
  cases s <;> simp [Sign.apply]

section

variable {x y : Float}

theorem parts_half (x : Float) : parts (x / 2) =
    settled (UnpackedFloat.div Format.binary64 (parts x)
      (.finite .positive (2 ^ 52) (-51) (by norm_num))) := by
  rw [← parts_two]
  rfl

/-- Half of a finite number has half as many ticks, rounded to the nearest. -/
theorem roundsTo_ticks_half (fx : (parts x).isFinite = true) :
    RoundsTo 2 (ticks x) (ticks (x / 2)) := by
  have hpacked := packed_parts x
  rw [ticks, ticks, parts_half]
  cases h : parts x with
  | infinity s =>
      rw [h] at fx
      cases fx
  | notANumber =>
      rw [h] at fx
      cases fx
  | zero s =>
      refine .of_eq two_pos ?_
      change ticksOf (settled (.zero _)) * 2 = 0
      rw [settled_eq_self (u := .zero _) ⟨trivial, trivial⟩, ticksOf_zero, zero_mul]
  | finite s m e hm =>
      rw [h] at hpacked
      obtain ⟨⟨hm53, he, hfull⟩, hfits⟩ := hpacked
      rcases he.eq_or_lt with rfl | hlt
      · have hticks : ticksOf (.finite s m (-1074) hm) = s.apply m := by
          rw [ticksOf]
          congr 2
          exact Nat.mul_one m
        rw [hticks]
        exact div_two_least s hm hm53
      · exact .of_eq two_pos (div_two_normal s hm (hfull.resolve_right (by omega)) hm53 hlt hfits)

/-- Half of an infinity is the infinity. -/
theorem parts_half_of_infinity {s : Sign} (h : parts x = .infinity s) :
    parts (x / 2) = .infinity s := by
  rw [parts_half, h]
  cases s <;> exact settled_infinity _

/-- **Halving keeps the order.** -/
theorem half_le_half (h : x ≤ y) : x / 2 ≤ y / 2 := by
  obtain ⟨hx, hy⟩ := isNaN_of_le h
  have hboundx := ticksOf_le_limit (packed_parts (x / 2))
  have hboundy := ticksOf_le_limit (packed_parts (y / 2))
  rw [le_iff_ticks hx hy, ticks, ticks] at h
  rw [le_iff_ticks (isNaN_half hx) (isNaN_half hy), ticks, ticks]
  rcases number_cases hx with ⟨hpx, -⟩ | ⟨hpx, -⟩ | ⟨fx, -⟩
  · -- only positive infinity is at least as large
    rcases number_cases hy with ⟨hpy, -⟩ | ⟨hpy, -⟩ | ⟨fy, -⟩
    · rw [parts_half_of_infinity hpx, parts_half_of_infinity hpy]
    · have := limit_pos
      rw [hpx, hpy, ticksOf_infinity_positive, ticksOf_infinity_negative] at h
      omega
    · have := (valueOf_finite (packed_parts y) fy).2.1
      rw [hpx, ticksOf_infinity_positive] at h
      omega
  · rw [parts_half_of_infinity hpx, ticksOf_infinity_negative]
    omega
  · rcases number_cases hy with ⟨hpy, -⟩ | ⟨hpy, -⟩ | ⟨fy, -⟩
    · rw [parts_half_of_infinity hpy, ticksOf_infinity_positive]
      omega
    · have := (valueOf_finite (packed_parts x) fx).2.1
      rw [hpy, ticksOf_infinity_negative] at h
      omega
    · exact (roundsTo_ticks_half fx).mono two_pos (roundsTo_ticks_half fy) h

end

/-! ### Means without rounding -/

section

variable {x y : Float}

/-- A sum with few bits is exact, unless it is infinite. -/
theorem ticks_add_of_short (fx : (parts x).isFinite = true) (fy : (parts y).isFinite = true)
    (fs : (parts (x + y)).isFinite = true) (h : Short (ticks x + ticks y).natAbs) :
    ticks (x + y) = ticks x + ticks y := by
  obtain ⟨-, hnear⟩ := near_add (packed_parts x) (packed_parts y) fx fy
  change NearInt (ticks x + ticks y) (ticks (x + y)) at hnear
  have hbound : (ticks (x + y)).natAbs < limit := (valueOf_finite (packed_parts (x + y)) fs).2.1
  have hlimit : Short limit := ⟨1, limitPlace, by norm_num, (one_mul _).symm⟩
  have hfits : (ticks x + ticks y).natAbs ≤ limit := by
    by_contra hlarge
    -- rounding would not come back below the ticks of an infinity
    have habove := (hnear limit (by rwa [Int.natAbs_natCast]) (by rw [Int.natAbs_natCast])).1
    have hbelow := (hnear (-limit) (by rwa [Int.natAbs_neg, Int.natAbs_natCast])
      (by rw [Int.natAbs_neg, Int.natAbs_natCast])).2
    omega
  obtain ⟨hlow, hhigh⟩ := hnear _ h hfits
  exact le_antisymm (hhigh le_rfl) (hlow le_rfl)

/-- A mean with few bits is exact, unless the sum is infinite. -/
theorem ticks_mean_of_short {c : ℤ} (fx : (parts x).isFinite = true)
    (fy : (parts y).isFinite = true) (fs : (parts (x + y)).isFinite = true)
    (h : Short (c * 2).natAbs) (hc : ticks x + ticks y = c * 2) : ticks ((x + y) / 2) = c := by
  rw [← hc] at h
  have hhalf := roundsTo_ticks_half fs
  rw [ticks_add_of_short fx fy fs h, hc] at hhalf
  have hexact : RoundsTo 2 (c * 2) c := .of_eq two_pos rfl
  exact le_antisymm (hhalf.mono two_pos hexact le_rfl) (hexact.mono two_pos hhalf le_rfl)

/-- The mean of a number and itself is the number, unless the sum is infinite. -/
theorem ticks_mean_self (fx : (parts x).isFinite = true) (fs : (parts (x + x)).isFinite = true) :
    ticks ((x + x) / 2) = ticks x := by
  have hshort : Short (ticks x).natAbs := (valueOf_finite (packed_parts x) fx).2.2
  refine ticks_mean_of_short fx fx fs ?_ (by omega)
  rw [Int.natAbs_mul]
  exact hshort.mul_two_pow 1

end

/-! ### Sums in order -/

section

variable {a b c d x y : Float}

/-- **Sums of numbers in order are in order.** -/
theorem add_le_add_of_le (hab : a ≤ b) (hbc : b ≤ c) (hcd : c ≤ d) (h₁ : (a + b).isNaN = false)
    (h₂ : (c + d).isNaN = false) : a + b ≤ c + d := by
  obtain ⟨ha, hb⟩ := isNaN_of_le hab
  obtain ⟨hc, hd⟩ := isNaN_of_le hcd
  rw [le_iff_value ha hb] at hab
  rw [le_iff_value hb hc] at hbc
  rw [le_iff_value hc hd] at hcd
  exact add_le_add_of_value ha hb hc hd h₁ h₂
    (add_le_add (hab.trans hbc) (hbc.trans hcd))

/-- A half that is a number is half of one. -/
theorem isNaN_of_half (h : (x / 2).isNaN = false) : x.isNaN = false := by
  rw [isNaN_eq, parts_half] at h
  rw [isNaN_eq]
  cases hx : parts x with
  | notANumber =>
      rw [hx] at h
      change (settled .notANumber).isNaN = false at h
      rw [settled_eq_self (u := .notANumber) ⟨trivial, trivial⟩] at h
      cases h
  | _ => rfl

/-- **Means of numbers in order are in order**, if they are numbers. -/
theorem mean_le_mean (hab : a ≤ b) (hbc : b ≤ c) (hcd : c ≤ d)
    (h₁ : ((a + b) / 2).isNaN = false) (h₂ : ((c + d) / 2).isNaN = false) :
    (a + b) / 2 ≤ (c + d) / 2 :=
  half_le_half (add_le_add_of_le hab hbc hcd (isNaN_of_half h₁) (isNaN_of_half h₂))

/-- The mean of two numbers in order lies between them, if the sums are finite. -/
theorem mean_between (h : x ≤ y) (fx : (parts x).isFinite = true) (fy : (parts y).isFinite = true)
    (fxx : (parts (x + x)).isFinite = true) (fxy : (parts (x + y)).isFinite = true)
    (fyy : (parts (y + y)).isFinite = true) : x ≤ (x + y) / 2 ∧ (x + y) / 2 ≤ y := by
  obtain ⟨hx, hy⟩ := isNaN_of_le h
  have hmean := isNaN_half (isNaN_of_isFinite fxy)
  have hfirst := isNaN_half (isNaN_of_isFinite fxx)
  have hsecond := isNaN_half (isNaN_of_isFinite fyy)
  -- the mean of a number and itself is that number
  have hlow := mean_le_mean (le_self hx) (le_self hx) h hfirst hmean
  have hhigh := mean_le_mean h (le_self hy) (le_self hy) hmean hsecond
  rw [le_iff_ticks hfirst hmean, ticks_mean_self fx fxx] at hlow
  rw [le_iff_ticks hmean hsecond, ticks_mean_self fy fyy] at hhigh
  exact ⟨(le_iff_ticks hx hmean).2 hlow, (le_iff_ticks hmean hy).2 hhigh⟩

end

end Vantage.Binary64
