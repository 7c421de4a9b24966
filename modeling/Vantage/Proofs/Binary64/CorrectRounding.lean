/-
**Exact numbers rounded to binary64.**

An exact number is rounded to the nearest number of the format, and of two that are equally near to
the one whose last bit is zero. From the point on that is halfway between the largest finite number
and the next power of two it is rounded to an infinity. A zero has a sign as well, so the sign of
the exact number is given apart from its amount.

Main definitions:

* `Vantage.Binary64.magnitude` — the bit pattern of a number without its sign;
* `Vantage.Binary64.exactValue` — the exact value of a finite number;
* `Vantage.Binary64.IsRounding` — the number to which an amount with a sign is rounded.

Main results:

* `Vantage.Binary64.isFinite_iff`, `Vantage.Binary64.isNaN_iff` — what the pattern tells of a
  number;
* `Vantage.Binary64.isRounding_iff` — **an amount is rounded to the nearest pattern**;
* `Vantage.Binary64.exists_isRounding` — there is one number to which an amount is rounded.
-/

import Vantage.Proofs.Binary64.NearestPatterns

set_option relaxedAutoImplicit false
set_option autoImplicit false

namespace Vantage.Binary64

open Decimal (perOne infinite signBit patternOf)
open Float.Model (UnpackedFloat Format)
open Float.Model.UnpackedFloat

/-! ### Patterns and numbers -/

/-- The bit pattern of a number without its sign. -/
def magnitude (x : Float) : ℕ := x.toBits.toNat % 2 ^ 63

section

variable (b : BitVec Format.binary64.numBits)

theorem unpackExponent_eq_last_iff :
    @unpackExponent Format.binary64 b = -1#11 ↔ b.toNat % 2 ^ 63 / 2 ^ 52 = 2047 := by
  rw [← BitVec.toNat_inj, toNat_unpackExponent]
  rfl

theorem unpackMantissa_eq_zero_iff :
    @unpackMantissa Format.binary64 b = 0#52 ↔ b.toNat % 2 ^ 63 % 2 ^ 52 = 0 := by
  rw [← BitVec.toNat_inj, toNat_unpackMantissa]
  rfl

/-- What a pattern tells of its number. -/
theorem kind_unpack :
    ((unpack Format.binary64 b).isFinite = true ↔ b.toNat % 2 ^ 63 < infinite) ∧
      ((unpack Format.binary64 b).isNaN = true ↔ infinite < b.toNat % 2 ^ 63) := by
  have hlast := unpackExponent_eq_last_iff b
  have hnone := unpackMantissa_eq_zero_iff b
  have hinfinite : infinite = 2047 * 2 ^ 52 := rfl
  have hlt : b.toNat % 2 ^ 63 < 2 ^ 63 := Nat.mod_lt _ (by positivity)
  generalize b.toNat % 2 ^ 63 = n at *
  unfold unpack
  dsimp only
  split
  next hinf =>
    have := hlast.1 hinf
    split
    next hzero =>
      have := hnone.1 hzero
      exact ⟨iff_of_false Bool.false_ne_true (by omega), iff_of_false Bool.false_ne_true (by omega)⟩
    next hzero =>
      have := mt hnone.2 hzero
      exact ⟨iff_of_false Bool.false_ne_true (by omega), iff_of_true rfl (by omega)⟩
  next hinf =>
    have := mt hlast.2 hinf
    split
    · split <;> exact ⟨iff_of_true rfl (by omega), iff_of_false Bool.false_ne_true (by omega)⟩
    · exact ⟨iff_of_true rfl (by omega), iff_of_false Bool.false_ne_true (by omega)⟩

end

section

variable {x y : Float}

theorem isFinite_iff : x.isFinite = true ↔ magnitude x < infinite := (kind_unpack _).1

theorem isNaN_iff : x.isNaN = true ↔ infinite < magnitude x := (kind_unpack _).2

/-- A number has the pattern that it is made of. -/
theorem toBits_ofBits {b : UInt64} (h : b.toNat % 2 ^ 63 ≤ infinite) :
    (Float.ofBits b).toBits = b := by
  have hnan : ¬ @isNaNBits Format.binary64 b.toBitVec = true := by
    rw [isNaNBits, decide_eq_true_iff, unpackExponent_eq_last_iff, Ne, unpackMantissa_eq_zero_iff]
    have hinfinite : infinite = 2047 * 2 ^ 52 := rfl
    change b.toBitVec.toNat % 2 ^ 63 ≤ infinite at h
    omega
  have hpack := @pack_unpack Format.binary64 b.toBitVec (by decide)
  rw [if_neg hnan] at hpack
  exact congrArg UInt64.ofBitVec hpack

/-- A number is known by its sign and its pattern without sign. -/
theorem eq_of_magnitude (hsign : 2 ^ 63 ≤ x.toBits.toNat ↔ 2 ^ 63 ≤ y.toBits.toNat)
    (h : magnitude x = magnitude y) : x = y := by
  have hx := x.toBits.toNat_lt
  have hy := y.toBits.toNat_lt
  rw [magnitude, magnitude] at h
  exact Float.toBits_inj.1 (UInt64.toNat_inj.1 (by omega))

/-- The number with a sign and a pattern without it. -/
def ofMagnitude (negative : Bool) (p : ℕ) : Float :=
  Float.ofBits (UInt64.ofNat ((if negative then signBit else 0) + p))

theorem toNat_toBits_ofMagnitude (negative : Bool) {p : ℕ} (h : p ≤ infinite) :
    (ofMagnitude negative p).toBits.toNat = (if negative then signBit else 0) + p := by
  have hinfinite : infinite = 0x7ff0000000000000 := rfl
  have hbit : signBit = 2 ^ 63 := rfl
  have hword : (UInt64.ofNat ((if negative then signBit else 0) + p)).toNat =
      (if negative then signBit else 0) + p := by
    rw [UInt64.toNat_ofNat', Nat.mod_eq_of_lt]
    split <;> omega
  rw [ofMagnitude, toBits_ofBits, hword]
  rw [hword]
  split <;> omega

theorem magnitude_ofMagnitude (negative : Bool) {p : ℕ} (h : p ≤ infinite) :
    magnitude (ofMagnitude negative p) = p := by
  have hinfinite : infinite = 0x7ff0000000000000 := rfl
  have hbit : signBit = 2 ^ 63 := rfl
  rw [magnitude, toNat_toBits_ofMagnitude negative h]
  split <;> omega

theorem sign_ofMagnitude (negative : Bool) {p : ℕ} (h : p ≤ infinite) :
    2 ^ 63 ≤ (ofMagnitude negative p).toBits.toNat ↔ negative = true := by
  have hinfinite : infinite = 0x7ff0000000000000 := rfl
  have hbit : signBit = 2 ^ 63 := rfl
  rw [toNat_toBits_ofMagnitude negative h]
  cases negative <;> simp <;> omega

/-- The number with a sign and a pattern is the one that has both. -/
theorem eq_ofMagnitude_iff {negative : Bool} {p : ℕ} (h : p ≤ infinite) :
    x = ofMagnitude negative p ↔
      (2 ^ 63 ≤ x.toBits.toNat ↔ negative = true) ∧ magnitude x = p := by
  constructor
  · rintro rfl
    exact ⟨sign_ofMagnitude _ h, magnitude_ofMagnitude _ h⟩
  · rintro ⟨hsign, hx⟩
    refine eq_of_magnitude ?_ ?_
    · rw [hsign, sign_ofMagnitude _ h]
    · rw [hx, magnitude_ofMagnitude _ h]

end

/-! ### Exact values -/

/-- The exact value of a finite number. -/
def exactValue (x : Float) : ℚ := ticks x / perOne

/-- An amount with a sign. -/
def signed (negative : Bool) (a : ℚ) : ℚ := if negative then -a else a

theorem perOne_pos : (0 : ℚ) < perOne := by
  rw [perOne_eq]
  positivity

theorem signed_zero (negative : Bool) : signed negative 0 = 0 := by
  cases negative
  · rfl
  · exact neg_zero

theorem signed_inj {negative : Bool} {a b : ℚ} : signed negative a = signed negative b ↔ a = b := by
  cases negative
  · exact Iff.rfl
  · exact neg_inj

theorem signed_mul (negative : Bool) (a b : ℚ) :
    signed negative a * b = signed negative (a * b) := by
  cases negative
  · rfl
  · exact neg_mul a b

/-- The exact value of a finite number is its value. -/
theorem value_eq_exactValue {x : Float} (fx : x.isFinite = true) :
    value x = ((exactValue x : ℚ) : ℝ) := by
  have htick : tick = (perOne : ℝ)⁻¹ := by
    rw [tick, perOne_eq, Nat.cast_pow, Nat.cast_ofNat, zpow_neg, ← zpow_natCast, onePlace_eq]
    rfl
  rw [value, (valueOf_finite (packed_parts x) fx).1, htick, exactValue, Rat.cast_div,
    Rat.cast_intCast, Rat.cast_natCast, div_eq_mul_inv]
  rfl

/-- Between amounts of the same sign the distance is that of the amounts. -/
theorem abs_signed_sub (negative : Bool) (a b : ℚ) :
    |signed negative a - signed negative b| = |a - b| := by
  cases negative
  · rfl
  · change |-a - -b| = _
    rw [neg_sub_neg, abs_sub_comm]

/-- With any signs the distance is no less. -/
theorem abs_sub_le_signed (negative negative' : Bool) {a b : ℚ} (ha : 0 ≤ a) (hb : 0 ≤ b) :
    |a - b| ≤ |signed negative a - signed negative' b| := by
  have hsum : |a - b| ≤ a + b := abs_sub_le_iff.2 ⟨by linarith, by linarith⟩
  cases negative <;> cases negative'
  · exact le_rfl
  · change _ ≤ |a - -b|
    rw [sub_neg_eq_add, abs_of_nonneg (add_nonneg ha hb)]
    exact hsum
  · change _ ≤ |-a - b|
    rw [← neg_add', abs_neg, abs_of_nonneg (add_nonneg ha hb)]
    exact hsum
  · exact (abs_signed_sub true a b).ge

/-- Across zero the distance is greater, unless one of the amounts is zero. -/
theorem eq_or_zero_of_abs_signed_sub {negative negative' : Bool} {a b : ℚ}
    (h : |signed negative a - signed negative' b| = |a - b|) :
    negative' = negative ∨ a = 0 ∨ b = 0 := by
  have key : |a + b| = |a - b| → a = 0 ∨ b = 0 := by
    intro habs
    rcases abs_eq_abs.1 habs with hsame | hopposite
    · exact .inr (by linarith)
    · exact .inl (by linarith)
  cases negative <;> cases negative'
  · exact .inl rfl
  · refine .inr (key ?_)
    rw [← h]
    change _ = |a - -b|
    rw [sub_neg_eq_add]
  · refine .inr (key ?_)
    rw [← h, ← abs_neg, neg_add']
    rfl
  · exact .inl rfl

section

variable {x : Float} {negative : Bool} {a : ℚ}

/-- The ticks of a number, by its sign and its pattern. -/
theorem cast_ticks (hx : x.isNaN = false) :
    (ticks x : ℚ) = signed (decide (2 ^ 63 ≤ x.toBits.toNat)) (patternTicks (magnitude x)) := by
  rw [ticks_eq_patternTicks hx, signOf, magnitude, signed]
  by_cases h : x.toBits.toNat < 2 ^ 63
  · rw [if_pos h, if_neg (by simpa using h)]
    rfl
  · rw [if_neg h, if_pos (by simpa using h)]
    push_cast [Sign.apply]
    rfl

theorem cast_ticks_of_sign (hx : x.isNaN = false)
    (hsign : 2 ^ 63 ≤ x.toBits.toNat ↔ negative = true) :
    (ticks x : ℚ) = signed negative (patternTicks (magnitude x)) := by
  have hsame : decide (2 ^ 63 ≤ x.toBits.toNat) = negative := by
    rw [Bool.eq_iff_iff, decide_eq_true_iff, hsign]
  rw [cast_ticks hx, hsame]

/-- Distances counted in ticks. -/
theorem dist_mul_perOne (negative : Bool) (a : ℚ) (x : Float) :
    |signed negative a - exactValue x| * perOne = |signed negative (a * perOne) - ticks x| := by
  rw [← abs_of_pos perOne_pos, ← abs_mul, sub_mul, signed_mul, exactValue,
    div_mul_cancel₀ _ perOne_pos.ne', abs_of_pos perOne_pos]

/-- From a number of the same sign the distance is that of the ticks without sign. -/
theorem dist_of_sign (hx : x.isNaN = false) (hsign : 2 ^ 63 ≤ x.toBits.toNat ↔ negative = true) :
    |signed negative (a * perOne) - ticks x| = |a * perOne - patternTicks (magnitude x)| := by
  rw [cast_ticks_of_sign hx hsign, abs_signed_sub]

theorem le_dist (hx : x.isNaN = false) (ha : 0 ≤ a) :
    |a * perOne - patternTicks (magnitude x)| ≤ |signed negative (a * perOne) - ticks x| := by
  rw [cast_ticks hx]
  exact abs_sub_le_signed _ _ (mul_nonneg ha perOne_pos.le) (Nat.cast_nonneg _)

theorem exactValue_ofMagnitude (negative : Bool) {p : ℕ} (h : p ≤ infinite) :
    exactValue (ofMagnitude negative p) = signed negative (patternTicks p) / perOne := by
  have hnumber : (ofMagnitude negative p).isNaN = false := by
    rw [← Bool.not_eq_true, isNaN_iff, magnitude_ofMagnitude _ h]
    exact h.not_gt
  rw [exactValue, cast_ticks_of_sign hnumber (sign_ofMagnitude _ h), magnitude_ofMagnitude _ h]

/-- A number is not below zero unless it has the sign and is not zero. -/
theorem exactValue_nonneg_iff {negative : Bool} {p : ℕ} (h : p ≤ infinite) :
    0 ≤ exactValue (ofMagnitude negative p) ↔ negative = false ∨ p = 0 := by
  rw [exactValue_ofMagnitude negative h, le_div_iff₀ perOne_pos, zero_mul]
  cases negative with
  | false => exact iff_of_true (Nat.cast_nonneg _) (.inl rfl)
  | true =>
      have hzero : patternTicks p = 0 ↔ p = 0 :=
        patternTicks_strictMono.injective.eq_iff' rfl
      change 0 ≤ -(patternTicks p : ℚ) ↔ _
      rw [neg_nonneg, Nat.cast_nonpos, hzero, or_iff_right (by decide)]

theorem exactValue_inj {y : Float} : exactValue x = exactValue y ↔ ticks x = ticks y := by
  rw [exactValue, exactValue, div_left_inj' perOne_pos.ne', Int.cast_inj]

end

/-! ### Rounding -/

/-- **The number to which an amount with a sign is rounded.** It has the sign; it is finite if the
amount lies below the point halfway between the largest finite number and `2 ^ 1024`, and then no
finite number is nearer, and one that is equally near leaves the last bit at zero. -/
structure IsRounding (negative : Bool) (a : ℚ) (r : Float) : Prop where
  isNumber : r.isNaN = false
  sign : 2 ^ 63 ≤ r.toBits.toNat ↔ negative = true
  finite : r.isFinite = true ↔ a < 2 ^ 1024 - 2 ^ 970
  nearest : r.isFinite = true → ∀ y : Float, y.isFinite = true →
    |signed negative a - exactValue r| ≤ |signed negative a - exactValue y|
  even : r.isFinite = true → ∀ y : Float, y.isFinite = true → exactValue y ≠ exactValue r →
    |signed negative a - exactValue y| = |signed negative a - exactValue r| → 2 ∣ r.toBits.toNat

/-- Halfway between the last multiple of a spacing before a power of two and this power. -/
theorem halfway_eq (k l : ℕ) : ((2 ^ 53 - 1 : ℕ) * 2 ^ (k + 1 + l) + 2 ^ 52 * 2 ^ (k + 2 + l) : ℚ) =
    2 * ((2 ^ 54 * 2 ^ k - 2 ^ k) * 2 ^ l) := by
  rw [pow_add, pow_add, pow_add, pow_add]
  norm_num
  ring

/-- The end of the range, counted in ticks. -/
theorem border_le_iff (a : ℚ) :
    (patternTicks (infinite - 1) + patternTicks infinite : ℚ) ≤ 2 * (a * perOne) ↔
      2 ^ 1024 - 2 ^ 970 ≤ a := by
  have hlast : patternTicks (infinite - 1) = (2 ^ 53 - 1) * 2 ^ (970 + 1 + onePlace) := by
    rw [show infinite - 1 = (970 + 1 + 1074) * 2 ^ 52 + (2 ^ 53 - 1) from rfl, ← onePlace_eq]
    exact patternTicks_multiple (by norm_num) (.inr (by norm_num))
  have hnext : patternTicks infinite = 2 ^ 52 * 2 ^ (970 + 2 + onePlace) := by
    rw [show infinite = (970 + 2 + 1074) * 2 ^ 52 + 2 ^ 52 from rfl, ← onePlace_eq]
    exact patternTicks_multiple (by norm_num) (.inr le_rfl)
  have hpower : (2 : ℚ) ^ 1024 = 2 ^ 54 * 2 ^ 970 := pow_add 2 54 970
  have hsum : (patternTicks (infinite - 1) + patternTicks infinite : ℚ) =
      2 * ((2 ^ 1024 - 2 ^ 970) * perOne) := by
    rw [hlast, hnext, perOne_eq, hpower, Nat.cast_mul, Nat.cast_mul, Nat.cast_pow, Nat.cast_pow,
      Nat.cast_pow, Nat.cast_pow, Nat.cast_ofNat]
    exact halfway_eq 970 onePlace
  rw [hsum, mul_le_mul_iff_right₀ two_pos, mul_le_mul_iff_left₀ perOne_pos]

section

variable {negative : Bool} {a : ℚ} {p : ℕ} {r : Float}

/-- The number with the nearest pattern is nearest. -/
theorem NearestPattern.isRounding (ha : 0 ≤ a) (h : NearestPattern (a * perOne) p)
    (hsign : 2 ^ 63 ≤ r.toBits.toNat ↔ negative = true) (hr : magnitude r = min p infinite) :
    IsRounding negative a r := by
  have hnumber : r.isNaN = false := by
    rw [← Bool.not_eq_true, isNaN_iff]
    omega
  have hfinite : r.isFinite = true ↔ p < infinite := by
    rw [isFinite_iff]
    omega
  have hself : r.isFinite = true →
      |signed negative (a * perOne) - ticks r| = |a * perOne - patternTicks p| := by
    intro fr
    rw [dist_of_sign hnumber hsign, hr, min_eq_left (hfinite.1 fr).le]
  refine ⟨hnumber, hsign, ?_, fun fr y fy => ?_, fun fr y fy hne heq => ?_⟩
  · rw [hfinite, ← not_le, h.infinite_le_iff, border_le_iff, not_le]
  · rw [← mul_le_mul_iff_left₀ perOne_pos, dist_mul_perOne, dist_mul_perOne, hself fr]
    exact (h.dist_le _).trans (le_dist (isNaN_of_isFinite fy) ha)
  · have hticks : |signed negative (a * perOne) - ticks y| = |a * perOne - patternTicks p| := by
      rw [← hself fr, ← dist_mul_perOne, ← dist_mul_perOne, heq]
    have hdist : |a * perOne - patternTicks (magnitude y)| = |a * perOne - patternTicks p| :=
      le_antisymm ((le_dist (isNaN_of_isFinite fy) ha).trans_eq hticks) (h.dist_le _)
    have hother : magnitude y ≠ p := by
      intro hsame
      rw [Ne, exactValue_inj, ← @Int.cast_inj ℚ, cast_ticks_of_sign hnumber hsign,
        cast_ticks (isNaN_of_isFinite fy), hsame, hr, min_eq_left (hfinite.1 fr).le] at hne
      rw [cast_ticks (isNaN_of_isFinite fy), hsame] at hticks
      have hzero : (patternTicks p : ℚ) ≠ 0 := by
        intro hzero
        rw [hzero, signed_zero, signed_zero] at hne
        exact hne rfl
      rcases eq_or_zero_of_abs_signed_sub hticks with hsign' | hnone | hnone
      · exact hne (by rw [hsign'])
      · have hleast := h.dist_le 0
        rw [hnone, zero_sub, zero_sub, abs_neg, abs_neg, show patternTicks 0 = 0 from rfl,
          Nat.cast_zero, abs_zero, abs_nonpos_iff] at hleast
        exact hzero hleast
      · exact hzero hnone
    obtain ⟨heven, -⟩ := h.tie hother hdist
    have hbits := r.toBits.toNat_lt
    rw [magnitude, min_eq_left (hfinite.1 fr).le] at hr
    omega

/-- A finite number to which an amount is rounded has the nearest pattern. -/
theorem IsRounding.magnitude_eq (ha : 0 ≤ a) (h : NearestPattern (a * perOne) p)
    (hp : p < infinite) (hr : IsRounding negative a r) (fr : r.isFinite = true) :
    magnitude r = p := by
  obtain ⟨y, hy⟩ : ∃ y, y = ofMagnitude negative p := ⟨_, rfl⟩
  have hpattern : magnitude y = p := by rw [hy, magnitude_ofMagnitude _ hp.le]
  have hsign : 2 ^ 63 ≤ y.toBits.toNat ↔ negative = true := by rw [hy, sign_ofMagnitude _ hp.le]
  have hnearest := h.isRounding ha hsign (by omega)
  have fy : y.isFinite = true := by
    rw [isFinite_iff]
    omega
  have hy' := cast_ticks_of_sign hnearest.isNumber hnearest.sign
  have hr' := cast_ticks_of_sign hr.isNumber hr.sign
  rw [hpattern] at hy'
  -- both numbers are nearest, so they are equally near
  have heq := le_antisymm (hr.nearest fr y fy) (hnearest.nearest fy r fr)
  have hdist := congrArg (· * (perOne : ℚ)) heq
  rw [dist_mul_perOne, dist_mul_perOne, hr', hy', abs_signed_sub, abs_signed_sub] at hdist
  by_contra hne
  obtain ⟨heven, hnext⟩ := h.tie hne hdist
  have hother : exactValue y ≠ exactValue r := by
    rw [Ne, exactValue_inj, ← @Int.cast_inj ℚ, hy', hr', signed_inj, Nat.cast_inj,
      patternTicks_strictMono.injective.eq_iff]
    exact Ne.symm hne
  have hlast := hr.even fr y fy hother heq.symm
  rw [magnitude] at hnext
  omega

/-- **An amount is rounded to the nearest pattern.** -/
theorem isRounding_iff (ha : 0 ≤ a) (h : NearestPattern (a * perOne) p) :
    IsRounding negative a r ↔
      (2 ^ 63 ≤ r.toBits.toNat ↔ negative = true) ∧ magnitude r = min p infinite := by
  constructor
  · intro hr
    refine ⟨hr.sign, ?_⟩
    have hborder : r.isFinite = true ↔ ¬ infinite ≤ p := by
      rw [hr.finite, ← not_le, ← border_le_iff, ← h.infinite_le_iff]
    by_cases hp : infinite ≤ p
    · have hnumber := hr.isNumber
      rw [← Bool.not_eq_true, isNaN_iff] at hnumber
      rw [isFinite_iff] at hborder
      omega
    · rw [min_eq_left (by omega)]
      exact hr.magnitude_eq ha h (by omega) (hborder.2 hp)
  · rintro ⟨hsign, hr⟩
    exact h.isRounding ha hsign hr

/-- The nearest pattern to an amount. -/
theorem exists_nearestPattern (ha : 0 ≤ a) : ∃ p, NearestPattern (a * perOne) p := by
  refine ⟨patternOf a.num.natAbs a.den, ?_⟩
  have h := nearestPattern_patternOf a.num.natAbs a.den_pos
  have hnum : ((a.num.natAbs : ℕ) : ℚ) = a.num := by
    rw [← Int.cast_natCast, Int.natAbs_of_nonneg (Rat.num_nonneg.2 ha)]
  rwa [Nat.cast_mul, hnum, mul_div_right_comm, Rat.num_div_den] at h

/-- **There is one number to which an amount is rounded.** -/
theorem exists_isRounding (ha : 0 ≤ a) (negative : Bool) :
    ∃ r, ∀ r', IsRounding negative a r' ↔ r' = r := by
  obtain ⟨p, hp⟩ := exists_nearestPattern ha
  refine ⟨ofMagnitude negative (min p infinite), fun r' => ?_⟩
  rw [isRounding_iff ha hp, eq_ofMagnitude_iff (min_le_right _ _)]

end

end Vantage.Binary64
