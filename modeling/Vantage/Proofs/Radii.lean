/-
**Radii given as texts.**

A text is a radius when, without the white space at its ends, it is a numeral whose exact number is
rounded to a finite number that is not below zero. The quotient of a numeral is computed only where
it can matter: beyond the bounds for the number of digits and the exponent, the amount is certainly
out of range, or certainly less than half of the least number.

Main results:

* `Decimal.Numeral.nearestPattern_pattern` — **a numeral is rounded to the nearest pattern**, also
  beyond the bounds;
* `Decimal.Numeral.radius?_eq_some_iff` — the radius that a numeral denotes;
* `Index.isRadius_of_exactValue` — a finite number that is not below zero is a radius;
* `radii_read` — **radii are read by their grammar and rounded correctly**, and a search takes them.
-/

import Vantage.Index.Reading
import Vantage.Proofs.Binary64.CorrectRounding
import Vantage.Proofs.Numerals
import Vantage.Proofs.Outcomes
import Vantage.Proofs.SavedIndex

set_option relaxedAutoImplicit false
set_option autoImplicit false

namespace Vantage

open Binary64 (NearestPattern IsRounding magnitude ofMagnitude exactValue signed patternTicks)

namespace Decimal

namespace Numeral

variable {x : Numeral}

/-! ### The size of an amount -/

/-- The length and the exponent tell between which powers of ten an amount lies. -/
theorem amount_bounds (hx : x.Sized) (hne : x.digits ≠ 0) :
    (10 : ℚ) ^ (x.length + x.exponent - 1) ≤ x.amount ∧
      x.amount < (10 : ℚ) ^ (x.length + x.exponent) := by
  obtain ⟨hpos, hlow, hhigh⟩ := hx hne
  have hten : (0 : ℚ) < 10 ^ x.exponent := by positivity
  constructor
  · calc (10 : ℚ) ^ (x.length + x.exponent - 1)
        = 10 ^ (x.length - 1) * 10 ^ x.exponent := by
          rw [← zpow_natCast, ← zpow_add₀ (by norm_num : (10 : ℚ) ≠ 0), Nat.cast_sub hpos]
          congr 1
          omega
      _ ≤ x.digits * 10 ^ x.exponent := mul_le_mul_of_nonneg_right (by exact_mod_cast hlow) hten.le
  · calc (x.digits * 10 ^ x.exponent : ℚ)
        < 10 ^ x.length * 10 ^ x.exponent := mul_lt_mul_of_pos_right (by exact_mod_cast hhigh) hten
      _ = 10 ^ (x.length + x.exponent) := by
          rw [← zpow_natCast, ← zpow_add₀ (by norm_num : (10 : ℚ) ≠ 0)]

theorem two_pow_le_ten_pow : 2 ^ 1024 ≤ 10 ^ 310 ∧ 2 ^ (Binary64.onePlace + 1) ≤ 10 ^ 331 := by
  rw [Binary64.onePlace_eq]
  decide +kernel

/-- An amount of `10 ^ 310` or more is out of range. -/
theorem border_le_amount (hx : x.Sized) (hne : x.digits ≠ 0)
    (h : x.length + x.exponent > 310) : 2 ^ 1024 - 2 ^ 970 ≤ x.amount := by
  calc (2 : ℚ) ^ 1024 - 2 ^ 970 ≤ 2 ^ 1024 := sub_le_self _ (by positivity)
    _ ≤ 10 ^ 310 := by exact_mod_cast two_pow_le_ten_pow.1
    _ = 10 ^ (310 : ℤ) := (zpow_natCast 10 310).symm
    _ ≤ 10 ^ (x.length + x.exponent - 1) := zpow_le_zpow_right₀ (by norm_num) (by omega)
    _ ≤ x.amount := (amount_bounds hx hne).1

/-- An amount below `10 ^ -330` is less than half of a tick. -/
theorem two_mul_amount_lt (hx : x.Sized) (hne : x.digits ≠ 0)
    (h : x.length + x.exponent < -330) : 2 * (x.amount * perOne) < 1 := by
  have hsmall : x.amount < (10 ^ 331 : ℚ)⁻¹ :=
    calc x.amount < 10 ^ (x.length + x.exponent) := (amount_bounds hx hne).2
      _ ≤ 10 ^ (-331 : ℤ) := zpow_le_zpow_right₀ (by norm_num) (by omega)
      _ = (10 ^ 331)⁻¹ := by
          rw [zpow_neg]
          exact congrArg _ (zpow_natCast 10 331)
  have hticks : (2 * perOne : ℚ) ≤ 10 ^ 331 := by
    rw [Binary64.perOne_eq, Nat.cast_pow, Nat.cast_ofNat, ← pow_succ']
    exact_mod_cast two_pow_le_ten_pow.2
  calc 2 * (x.amount * perOne) = x.amount * (2 * perOne) := by ring
    _ < (10 ^ 331)⁻¹ * (2 * perOne) :=
        mul_lt_mul_of_pos_right hsmall (mul_pos two_pos Binary64.perOne_pos)
    _ ≤ (10 ^ 331)⁻¹ * 10 ^ 331 := mul_le_mul_of_nonneg_left hticks (by positivity)
    _ = 1 := inv_mul_cancel₀ (by positivity)

/-! ### The nearest pattern -/

/-- An amount without places behind the point is rounded as a whole number. -/
theorem nearestPattern_of_nonneg (h : 0 ≤ x.exponent) :
    NearestPattern (x.amount * perOne) (patternOf (x.digits * Nat.pow 10 x.exponent.toNat) 1) := by
  have hnearest := Binary64.nearestPattern_patternOf (x.digits * 10 ^ x.exponent.toNat) one_pos
  have hvalue : x.amount = x.digits * 10 ^ x.exponent.toNat := by
    rw [amount, ← zpow_natCast, Int.toNat_of_nonneg h]
  rw [Nat.cast_mul, Nat.cast_mul, Nat.cast_pow, Nat.cast_ofNat, Nat.cast_one, div_one,
    ← hvalue] at hnearest
  exact hnearest

/-- An amount with places behind the point is rounded as a quotient. -/
theorem nearestPattern_of_neg (h : ¬ 0 ≤ x.exponent) :
    NearestPattern (x.amount * perOne) (patternOf x.digits (Nat.pow 10 (-x.exponent).toNat)) := by
  have hnearest := Binary64.nearestPattern_patternOf x.digits
    (show 0 < 10 ^ (-x.exponent).toNat by positivity)
  have hvalue : x.amount = x.digits / 10 ^ (-x.exponent).toNat := by
    rw [amount, ← zpow_natCast, Int.toNat_of_nonneg (by omega), zpow_neg, div_inv_eq_mul]
  rw [Nat.cast_mul, Nat.cast_pow, Nat.cast_ofNat, mul_div_right_comm, ← hvalue] at hnearest
  exact hnearest

/-- **A numeral is rounded to the nearest pattern**, up to infinity. -/
theorem nearestPattern_pattern (hx : x.Sized) :
    ∃ p, NearestPattern (x.amount * perOne) p ∧ min p infinite = min x.pattern infinite := by
  unfold pattern
  split_ifs with hzero hlarge hsmall hexponent
  · refine ⟨0, .zero ?_, rfl⟩
    rw [amount, hzero, Nat.cast_zero, zero_mul, zero_mul, mul_zero]
    exact one_pos
  · obtain ⟨p, hp⟩ := Binary64.exists_nearestPattern x.amount_nonneg
    have hborder := (Binary64.border_le_iff _).2 (border_le_amount hx hzero hlarge)
    exact ⟨p, hp, by rw [min_eq_right (hp.infinite_le_iff.2 hborder), min_self]⟩
  · exact ⟨0, .zero (two_mul_amount_lt hx hzero hsmall), rfl⟩
  · exact ⟨_, nearestPattern_of_nonneg hexponent, rfl⟩
  · exact ⟨_, nearestPattern_of_neg hexponent, rfl⟩

/-- A numeral is rounded to the number with its pattern, up to infinity. -/
theorem isRounding_iff (hx : x.Sized) {negative : Bool} {r : Float} :
    IsRounding negative x.amount r ↔ r = ofMagnitude negative (min x.pattern infinite) := by
  obtain ⟨p, hp, hpattern⟩ := nearestPattern_pattern hx
  rw [Binary64.isRounding_iff x.amount_nonneg hp, hpattern,
    Binary64.eq_ofMagnitude_iff (min_le_right _ _)]

/-! ### The radius that a numeral denotes -/

/-- The radius of a numeral: the number with its pattern, if this is finite and not below zero. -/
theorem radius?_eq (x : Numeral) :
    x.radius? = if x.pattern < infinite ∧ (x.negative = false ∨ x.pattern = 0) then
      some (ofMagnitude x.negative x.pattern) else none := by
  unfold radius?
  cases hsign : x.negative
  · simp [ofMagnitude]
  · by_cases hzero : x.pattern = 0
    · simp [ofMagnitude, hzero]
    · simp [hzero]

/-- **The radius that a numeral denotes.** -/
theorem radius?_eq_some_iff (hx : x.Sized) {r : Float} :
    x.radius? = some r ↔
      IsRounding x.negative x.amount r ∧ r.isFinite = true ∧ 0 ≤ exactValue r := by
  have hcut : min x.pattern infinite ≤ infinite := min_le_right _ _
  rw [radius?_eq, isRounding_iff hx, Option.ite_none_right_eq_some, Option.some_inj]
  constructor
  · rintro ⟨⟨hfinite, hsign⟩, rfl⟩
    rw [min_eq_left hfinite.le, Binary64.isFinite_iff, Binary64.magnitude_ofMagnitude _ hfinite.le,
      Binary64.exactValue_nonneg_iff hfinite.le]
    exact ⟨rfl, hfinite, hsign⟩
  · rintro ⟨rfl, hfinite, hexact⟩
    rw [Binary64.isFinite_iff, Binary64.magnitude_ofMagnitude _ hcut] at hfinite
    have hpattern : x.pattern < infinite := by omega
    rw [min_eq_left hpattern.le] at hexact ⊢
    exact ⟨⟨hpattern, (Binary64.exactValue_nonneg_iff hpattern.le).1 hexact⟩, rfl⟩

end Numeral

end Decimal

open Decimal

/-! ### Reading -/

/-- **The radius that a stripped text denotes.** -/
theorem radiusOf?_eq_some_iff {cs : List Char} {r : Float} :
    radiusOf? cs = some r ↔
      ∃ negative a, Denotes cs negative a ∧ IsRounding negative a r ∧ r.isFinite = true ∧
        0 ≤ exactValue r := by
  rw [radiusOf?, Option.bind_eq_some_iff]
  constructor
  · rintro ⟨x, hx, hr⟩
    exact ⟨_, _, denotes_iff.2 ⟨x, hx, rfl, rfl⟩,
      (Numeral.radius?_eq_some_iff (Numeral.sized_ofText? hx)).1 hr⟩
  · rintro ⟨negative, a, hdenotes, hr⟩
    obtain ⟨x, hx, rfl, rfl⟩ := denotes_iff.1 hdenotes
    exact ⟨x, hx, (Numeral.radius?_eq_some_iff (Numeral.sized_ofText? hx)).2 hr⟩

/-- A text that denotes no radius is named as it was given. -/
theorem readRadius_eq (text : String) :
    readRadius text = (radiusOf? (Text.trim text.toList)).elim (.error (.badRadius text)) .ok := by
  unfold readRadius
  cases radiusOf? (Text.trim text.toList) <;> rfl

/-! ### Searching -/

namespace Index

/-- A finite number that is not below zero is a radius. -/
theorem isRadius_of_exactValue {r : Float} (fr : r.isFinite = true) (h : 0 ≤ exactValue r) :
    isRadius r = true := by
  rw [isRadius, fr, Bool.true_and, Bool.not_eq_true', decide_eq_false_iff_not,
    Binary64.lt_iff_value (Binary64.isNaN_of_isFinite fr) Binary64.isNaN_zero,
    Binary64.value_zero, Binary64.value_eq_exactValue fr, not_lt]
  exact EReal.coe_nonneg.2 (Rat.cast_nonneg.2 h)

/-- A search of a reachable index takes every radius. -/
theorem Reachable.exists_query {metric : Metric} {x : Index} (hx : Reachable metric x)
    (target : UInt64) {r : Float} (hr : isRadius r = true) :
    ∃ hits, x.query target r = .ok (.ok hits) := by
  obtain ⟨shape, ht⟩ := hx.exists_tree
  obtain ⟨found, hfound⟩ : ∃ found, x.tree.search target r = .ok found :=
    ⟨_, Tree.search_eq ht.sound.1 target r⟩
  refine ⟨found.hits.map fun hit => (hit.held.point.id, hit.distance), ?_⟩
  rw [query, if_pos hr, hfound, ok_bind]
  rfl

end Index

/-- **Radii are read by their grammar and rounded correctly.**  A text is a radius when, without the
white space at its ends, it is a numeral whose exact number is rounded to a finite number that is
not below zero, and it is this number; a numeral denotes one exact number, which is rounded to one
number of the format. Every other text is named by a fault, with its white space. A minus sign is
left only in a negative zero, and a search of an index takes every radius that was read. -/
theorem radii_read :
    (∀ text : String, ∃ t, (∀ u, Text.Stripped text.toList u ↔ u = t) ∧
      (∀ negative a, Denotes t negative a →
        (∀ negative' a', Denotes t negative' a' ↔ negative' = negative ∧ a' = a) ∧
        ∃ r, ∀ r', IsRounding negative a r' ↔ r' = r) ∧
      (∀ r, readRadius text = .ok r ↔
        ∃ negative a, Denotes t negative a ∧ IsRounding negative a r ∧
          r.isFinite = true ∧ 0 ≤ exactValue r) ∧
      ∀ fault, readRadius text = .error fault ↔ fault = .badRadius text ∧
        ∀ negative a r, Denotes t negative a → IsRounding negative a r →
          ¬ (r.isFinite = true ∧ 0 ≤ exactValue r)) ∧
    ∀ text r, readRadius text = .ok r →
      (2 ^ 63 ≤ r.toBits.toNat → r.toBits.toNat = signBit) ∧
      ∀ (metric : Metric) (x : Index) (target : UInt64), Index.Reachable metric x →
        ∃ hits, x.query target r = .ok (.ok hits) := by
  constructor
  · intro text
    refine ⟨Text.trim text.toList, fun u => Text.stripped_iff, fun negative a h => ?_, fun r => ?_,
      fun fault => ?_⟩
    · refine ⟨fun negative' a' => ⟨fun h' => h'.unique h, ?_⟩,
        Binary64.exists_isRounding h.nonneg negative⟩
      rintro ⟨rfl, rfl⟩
      exact h
    · rw [readRadius_eq, elim_eq_ok_iff, radiusOf?_eq_some_iff]
    · rw [readRadius_eq, elim_eq_error_iff]
      refine and_congr_right fun _ => ?_
      simp only [ne_eq, radiusOf?_eq_some_iff, not_exists, not_and]
      exact ⟨fun h negative a r hd hr fr => h r negative a hd hr fr,
        fun h r negative a hd hr fr => h negative a r hd hr fr⟩
  · intro text r h
    rw [readRadius_eq, elim_eq_ok_iff, radiusOf?_eq_some_iff] at h
    obtain ⟨negative, a, -, -, hfinite, hexact⟩ := h
    refine ⟨fun hsign => ?_, fun metric x target hx =>
      hx.exists_query target (Index.isRadius_of_exactValue hfinite hexact)⟩
    have hcut := (Binary64.isFinite_iff.1 hfinite).le
    have hself : r = ofMagnitude true (magnitude r) :=
      (Binary64.eq_ofMagnitude_iff hcut).2 ⟨iff_of_true hsign rfl, rfl⟩
    rw [hself, Binary64.exactValue_nonneg_iff hcut, or_iff_right (by decide), magnitude] at hexact
    have hbits := r.toBits.toNat_lt
    rw [show signBit = 2 ^ 63 from rfl]
    omega

/-- A number halfway between two of the format is rounded to the even one. -/
example : (readRadius "9007199254740993\n").map Float.toBits = .ok 0x4340000000000000 := by
  decide +kernel

/-- A negative number that is rounded to zero keeps its sign. -/
example : (readRadius "-1e-400").map Float.toBits = .ok 0x8000000000000000 := by decide +kernel

/-- The largest finite number is not the largest amount that is rounded to it. -/
example : (readRadius "1.7976931348623158e308").map Float.toBits = .ok 0x7fefffffffffffff ∧
    readRadius "1.797693134862315808e308" = .error (.badRadius "1.797693134862315808e308") := by
  decide +kernel

end Vantage
