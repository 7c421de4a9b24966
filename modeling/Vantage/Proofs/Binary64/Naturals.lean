/-
**Natural numbers as binary64 numbers, and halves.**

Main definitions:

* `Vantage.Binary64.HasSign` — a number with a sign.

Main results:

* `Vantage.Binary64.parts_ofNat`, `Vantage.Binary64.value_ofNat`, `Vantage.Binary64.ticks_ofNat` —
  **a natural number of at most 53 bits is represented exactly**;
* `Vantage.Binary64.value_add_ofNat` — the sum of natural numbers is exact, if it has at most 53
  bits;
* `Vantage.Binary64.isNaN_half` — half a number is a number.
-/

import Vantage.Proofs.Binary64.Sums

set_option relaxedAutoImplicit false
set_option autoImplicit false

namespace Vantage.Binary64

open Float.Model (UnpackedFloat Format)
open Float.Model.UnpackedFloat

/-! ### Natural numbers -/

/-- A short number is rounded to itself. -/
theorem Near.eq_of_short {n r : ℕ} (h : Near n r) (hn : Short n) : r = n :=
  le_antisymm ((h n hn).2 le_rfl) ((h n hn).1 le_rfl)

theorem Short.mul_two_pow {n : ℕ} (h : Short n) (k : ℕ) : Short (n * 2 ^ k) := by
  obtain ⟨a, j, ha, rfl⟩ := h
  exact ⟨a, j + k, ha, by rw [mul_assoc, ← pow_add]⟩

theorem short_of_lt {n : ℕ} (h : n < 2 ^ 53) : Short n := ⟨n, 0, h, by rw [pow_zero, mul_one]⟩

/-- The exponent of a rounded number with as many ticks as a natural number of 53 bits. -/
theorem exponent_bounds {n r : ℕ} {t : ℤ} (hn : 0 < n) (hn53 : n < 2 ^ 53) (h : Rounded r t)
    (hval : r * 2 ^ (t + 1074).toNat = n * 2 ^ 1074) : -53 ≤ t ∧ t ≤ 971 := by
  obtain ⟨hr, ht, hfull⟩ := h
  constructor
  · by_contra hlt
    refine absurd hval (ne_of_lt ?_)
    calc r * 2 ^ (t + 1074).toNat < 2 ^ 53 * 2 ^ (t + 1074).toNat :=
          Nat.mul_lt_mul_of_pos_right hr (by positivity)
      _ = 2 ^ (53 + (t + 1074).toNat) := by rw [pow_add]
      _ ≤ 2 ^ 1074 := Nat.pow_le_pow_right (by norm_num) (by omega)
      _ ≤ n * 2 ^ 1074 := Nat.le_mul_of_pos_left _ hn
  · by_contra hlt
    refine absurd hval (ne_of_gt ?_)
    calc n * 2 ^ 1074 < 2 ^ 53 * 2 ^ 1074 := Nat.mul_lt_mul_of_pos_right hn53 (by positivity)
      _ ≤ r * 2 ^ (t + 1074).toNat :=
        two_pow_mul_le (hfull.resolve_right (by omega)) (by omega : 1074 < (t + 1074).toNat)

/-- Converting a word of at most 53 bits. -/
theorem parts_toFloat {n : ℕ} (hn : 0 < n) (hn53 : n < 2 ^ 53) :
    ∃ r t hr, parts n.toUInt64.toFloat = .finite .positive r t hr ∧ Rounded r t ∧
      r * 2 ^ (t + 1074).toNat = n * 2 ^ 1074 := by
  obtain ⟨r, t, hr, hround, hrounded, hnear⟩ := near_round .positive hn (e := 0) (by norm_num)
  have hval := hnear.eq_of_short ((short_of_lt hn53).mul_two_pow _)
  obtain ⟨-, ht⟩ := exponent_bounds hn hn53 hrounded hval
  refine ⟨r, t, hr, ?_, hrounded, hval⟩
  have hword : n.toUInt64.toNat = n := by
    rw [Nat.toUInt64_eq, UInt64.toNat_ofNat']
    exact Nat.mod_eq_of_lt (hn53.trans (by norm_num))
  have hparts : parts n.toUInt64.toFloat =
      settled (UnpackedFloat.normalize Format.binary64 (n.toUInt64.toNat : ℤ) 0 .positive) := rfl
  rw [hparts, hword, UnpackedFloat.normalize, compare_gt_iff_gt.2 (by omega : (n : ℤ) > 0)]
  change settled (UnpackedFloat.round Format.binary64 .positive (n : ℤ).toNat 0) = _
  rw [Int.toNat_natCast, hround]
  exact settled_eq_self ⟨hrounded, ht⟩

/-- Multiplying by one. -/
theorem ofNat_eq_mul_one {n : ℕ} (h : n < 2 ^ 53) :
    Float.ofNat n = n.toUInt64.toFloat * Float.ofBits 0x3FF0000000000000 := by
  unfold Float.ofNat
  change Float.ofScientific n false 0 = _
  unfold Float.ofScientific
  rw [dif_pos ⟨h, by norm_num⟩]
  rfl

theorem parts_one : parts (Float.ofBits 0x3FF0000000000000) =
    .finite .positive (2 ^ 52) (-52) (by norm_num) := rfl

/-- **A natural number of at most 53 bits is represented exactly.** -/
theorem parts_ofNat {n : ℕ} (hn : 0 < n) (hn53 : n < 2 ^ 53) :
    ∃ r t hr, parts (Float.ofNat n) = .finite .positive r t hr ∧ Rounded r t ∧ t ≤ 971 ∧
      r * 2 ^ (t + 1074).toNat = n * 2 ^ 1074 := by
  obtain ⟨r, t, hr, hparts, hrounded, hval⟩ := parts_toFloat hn hn53
  obtain ⟨hlow, -⟩ := exponent_bounds hn hn53 hrounded hval
  have hmul : parts (Float.ofNat n) = settled (roundWithAccuracy Format.binary64 .positive
      (r * 2 ^ 52) (t + -52) .exact) := by
    rw [ofNat_eq_mul_one hn53]
    change settled (UnpackedFloat.mul Format.binary64 (parts n.toUInt64.toFloat)
      (parts (Float.ofBits 0x3FF0000000000000))) = _
    rw [hparts, parts_one]
    rfl
  -- the product with one has more bits than the format, and is rounded back
  have hlog : r.log2 < 53 := (Nat.log2_lt hr.ne').2 hrounded.1
  have htarget : t + -52 ≤ Format.binary64.targetExponent
      (Float.Model.totalExponent (r * 2 ^ 52) (t + -52)) := by
    obtain ⟨-, -, hfull⟩ := hrounded
    rw [targetExponent_eq, Float.Model.totalExponent, log2_mul_two_pow hr.ne']
    rcases hfull with h | h
    · have := (Nat.le_log2 hr.ne').2 h
      omega
    · omega
  obtain ⟨r', t', hr', hround, hrounded', hnear⟩ :=
    near_roundWithAccuracy .positive (by positivity) (by omega) htarget
  have hsame : r * 2 ^ 52 * 2 ^ (t + -52 + 1074).toNat = n * 2 ^ 1074 := by
    rw [← hval, mul_assoc, ← pow_add]
    congr 2
    omega
  rw [hsame] at hnear
  have hval' := hnear.eq_of_short ((short_of_lt hn53).mul_two_pow _)
  obtain ⟨-, hhigh⟩ := exponent_bounds hn hn53 hrounded' hval'
  refine ⟨r', t', hr', ?_, hrounded', hhigh, hval'⟩
  rw [hmul, hround]
  exact settled_eq_self ⟨hrounded', hhigh⟩

theorem parts_zero : parts (Float.ofNat 0) = .zero .positive := by
  rw [ofNat_eq_mul_one (by norm_num)]
  rfl

/-- A natural number of at most 53 bits is a number. -/
theorem isNaN_ofNat {n : ℕ} (h : n < 2 ^ 53) : (Float.ofNat n).isNaN = false := by
  rw [isNaN_eq]
  rcases Nat.eq_zero_or_pos n with rfl | hn
  · rw [parts_zero]
    rfl
  · obtain ⟨r, t, hr, hparts, -⟩ := parts_ofNat hn h
    rw [hparts]
    rfl

/-- **A natural number of at most 53 bits has itself as value.** -/
theorem value_ofNat {n : ℕ} (h : n < 2 ^ 53) : value (Float.ofNat n) = (n : ℝ) := by
  rcases Nat.eq_zero_or_pos n with rfl | hn
  · rw [value, parts_zero, valueOf_zero, Nat.cast_zero, EReal.coe_zero]
  · obtain ⟨r, t, hr, hparts, hrounded, ht, hval⟩ := parts_ofNat hn h
    have hv := (valueOf_finite (u := .finite .positive r t hr) ⟨hrounded, ht⟩ rfl).1
    rw [value, hparts, hv, ticksOf, Sign.apply, hval, tick]
    congr 1
    rw [Nat.cast_mul, Nat.cast_pow, Nat.cast_ofNat, Int.cast_mul, Int.cast_pow, Int.cast_natCast,
      mul_assoc, Int.cast_ofNat, ← zpow_natCast, ← zpow_add₀ (by norm_num : (2 : ℝ) ≠ 0)]
    norm_num

theorem isNaN_zero : (0 : Float).isNaN = false := isNaN_ofNat (n := 0) (by norm_num)

theorem value_zero : value 0 = 0 := by
  rw [show (0 : Float) = Float.ofNat 0 from rfl, value_ofNat (by norm_num)]
  simp

theorem nonneg_value_ofNat {n : ℕ} (h : n < 2 ^ 53) : 0 ≤ value (Float.ofNat n) := by
  rw [value_ofNat h]
  exact_mod_cast Nat.zero_le n

/-- **The sum of natural numbers is exact**, if it has at most 53 bits. -/
theorem value_add_ofNat {m n : ℕ} (h : m + n < 2 ^ 53) :
    value (Float.ofNat m + Float.ofNat n) = value (Float.ofNat m) + value (Float.ofNat n) := by
  have hm : m < 2 ^ 53 := by omega
  have hn : n < 2 ^ 53 := by omega
  have hsum := isNaN_add (isNaN_ofNat hm) (isNaN_ofNat hn) (nonneg_value_ofNat hm)
    (nonneg_value_ofNat hn)
  refine value_add_of_value (isNaN_ofNat hm) (isNaN_ofNat hn) (isNaN_ofNat h) hsum ?_
  rw [value_ofNat h, value_ofNat hm, value_ofNat hn]
  exact_mod_cast rfl

/-- **The ticks of a natural number of at most 53 bits.** -/
theorem ticks_ofNat {n : ℕ} (h : n < 2 ^ 53) : ticks (Float.ofNat n) = (n * 2 ^ 1074 : ℕ) := by
  rcases Nat.eq_zero_or_pos n with rfl | hn
  · rw [ticks, parts_zero, ticksOf_zero, Nat.zero_mul, Nat.cast_zero]
  · obtain ⟨r, t, hr, hparts, -, -, hval⟩ := parts_ofNat hn h
    rw [ticks, hparts, ticksOf, Sign.apply, hval]

/-- A number whose value is a natural number of at most 53 bits has the ticks of that number. -/
theorem ticks_of_value {x : Float} {n : ℕ} (hx : x.isNaN = false) (h : n < 2 ^ 53)
    (hvalue : value x = (n : ℝ)) : ticks x = (n * 2 ^ 1074 : ℕ) := by
  have hn := isNaN_ofNat h
  rw [← value_ofNat h] at hvalue
  rw [← ticks_ofNat h]
  exact le_antisymm ((le_iff_ticks hx hn).1 ((le_iff_value hx hn).2 hvalue.le))
    ((le_iff_ticks hn hx).1 ((le_iff_value hn hx).2 hvalue.ge))

/-! ### Numbers with a sign -/

/-- A number with the given sign, which zeros and infinities have too. -/
def HasSign (s : Sign) : UnpackedFloat → Prop
  | .infinity t => t = s
  | .notANumber => False
  | .zero t => t = s
  | .finite t _ _ _ => t = s

theorem HasSign.isNaN {s : Sign} {u : UnpackedFloat} (h : HasSign s u) : u.isNaN = false := by
  cases u with
  | notANumber => exact h.elim
  | _ => rfl

/-- A number with a sign is infinite, zero or finite. -/
theorem HasSign.cases {s : Sign} {u : UnpackedFloat} (h : HasSign s u) :
    u = .infinity s ∨ u = .zero s ∨ ∃ m e hm, u = .finite s m e hm := by
  cases u with
  | notANumber => exact h.elim
  | infinity t => exact .inl (congrArg _ h)
  | zero t => exact .inr (.inl (congrArg _ h))
  | finite t m e hm =>
      obtain rfl : t = s := h
      exact .inr (.inr ⟨m, e, hm, rfl⟩)

/-- What is packed as finite keeps its sign, and is never read as not a number. -/
theorem hasSign_settled_finite (s : Sign) (m : ℕ) (e : ℤ) (hm : 0 < m) :
    HasSign s (settled (.finite s m e hm)) := by
  have hx : 2 ^ Format.binary64.exponentBits = 2048 := rfl
  simp only [settled, UnpackedFloat.pack, hx]
  split
  · rw [packedInfinity, show UnpackedFloat.unpack Format.binary64 _ = _ from
      unpack_packComponents s (-1#11) 0]
    rfl
  next hbig =>
    split
    · -- the exponent that is packed is not the one of infinities
      rw [show UnpackedFloat.unpack Format.binary64 _ = _ from unpack_packComponents s _ _, if_neg]
      · split
        · split <;> rfl
        · rfl
      · intro hEq
        have := congrArg BitVec.toNat hEq
        rw [BitVec.toNat_ofNat] at this
        change _ % 2048 = 2047 at this
        omega
    · rw [show UnpackedFloat.unpack Format.binary64 _ = _ from unpack_packComponents s 0#11 _,
        if_neg (by decide), if_pos rfl]
      split <;> rfl

/-- Rounding gives a finite number or zero, and keeps the sign. -/
theorem hasSign_settled_roundWithAccuracy (s : Sign) (m : ℕ) (e : ℤ) (a : Accuracy) :
    HasSign s (settled (roundWithAccuracy Format.binary64 s m e a)) := by
  simp only [roundWithAccuracy]
  split
  · rw [settled_eq_self (u := .zero s) ⟨trivial, trivial⟩]
    rfl
  · exact hasSign_settled_finite _ _ _ _

/-! ### Halves -/

/-- Half a number is a number. -/
theorem isNaN_half {x : Float} (hx : x.isNaN = false) : (x / 2).isNaN = false := by
  obtain ⟨r, t, hr, htwo, -⟩ := parts_ofNat (n := 2) (by norm_num) (by norm_num)
  rw [isNaN_eq] at hx ⊢
  change (settled (UnpackedFloat.div Format.binary64 (parts x) (parts (Float.ofNat 2)))).isNaN = _
  rw [htwo]
  cases hparts : parts x with
  | infinity s => exact congrArg UnpackedFloat.isNaN (settled_infinity _)
  | notANumber =>
      rw [hparts] at hx
      cases hx
  | zero s =>
      exact congrArg UnpackedFloat.isNaN (settled_eq_self (u := .zero _) ⟨trivial, trivial⟩)
  | finite s m e hm => exact (hasSign_settled_roundWithAccuracy _ _ _ _).isNaN

end Vantage.Binary64
