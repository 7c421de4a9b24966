/-
**Rounding to the nearest number, and to the even one of two.**

A number that has too many bits is rounded to the nearest one that has not, and if two are equally
near to the one with the even mantissa.  Which number that is depends on the exact number alone, not
on the mantissa and the exponent that stand for it, and so rounding keeps the order of exact
numbers.

Main definitions:

* `Vantage.Binary64.RoundsTo` — the whole number to which a fraction is rounded;
* `Vantage.Binary64.Represents` — the fraction for which a mantissa with two further bits stands.

Main results:

* `Vantage.Binary64.RoundsTo.mono` — larger fractions are not rounded to smaller numbers;
* `Vantage.Binary64.Represents.roundsTo` — cutting off bits rounds to the nearest;
* `Vantage.Binary64.round_le_round` — **rounding keeps the order**.
-/

import Vantage.Proofs.Binary64.Sums

set_option relaxedAutoImplicit false
set_option autoImplicit false

namespace Vantage.Binary64

open Float.Model (UnpackedFloat Format)
open Float.Model.UnpackedFloat

/-! ### Rounding fractions -/

/-- The whole number nearest to `n / d`, and of two that are equally near the even one. -/
structure RoundsTo (d : ℕ) (n r : ℤ) : Prop where
  below : 2 * n ≤ (2 * r + 1) * d
  above : 2 * r * d ≤ 2 * n + d
  even : 2 * n = (2 * r + 1) * d ∨ 2 * r * d = 2 * n + d → 2 ∣ r

namespace RoundsTo

variable {d : ℕ} {m n r s : ℤ}

/-- Larger fractions are not rounded to smaller numbers. -/
theorem mono (hd : 0 < d) (hr : RoundsTo d m r) (hs : RoundsTo d n s) (h : m ≤ n) : r ≤ s := by
  by_contra hlt
  -- both would have to lie halfway between `s` and `s + 1 = r`, and so both be even
  have hd' : (0 : ℤ) < d := by exact_mod_cast hd
  have hsr : (s + 1) * d ≤ r * d := mul_le_mul_of_nonneg_right (by omega) hd'.le
  have hr' := hr.above
  have hs' := hs.below
  have hexpand : (2 * s + 1) * d + d = 2 * ((s + 1) * d) := by ring
  have hexpand' : 2 * r * d = 2 * (r * d) := by ring
  have hrs : r = s + 1 := mul_right_cancel₀ hd'.ne' (by omega : r * d = (s + 1) * d)
  have h₁ := hr.even (.inr (by omega))
  have h₂ := hs.even (.inl (by omega))
  omega

theorem scale (h : RoundsTo d n r) {k : ℕ} (hk : 0 < k) : RoundsTo (d * k) (n * k) r := by
  have hk' : (0 : ℤ) < k := by exact_mod_cast hk
  constructor <;> rw [Nat.cast_mul, ← mul_assoc, ← mul_assoc]
  · exact mul_le_mul_of_nonneg_right h.below hk'.le
  · rw [← add_mul]
    exact mul_le_mul_of_nonneg_right h.above hk'.le
  · rw [← mul_assoc, ← add_mul]
    have hcancel : ∀ {a b : ℤ}, a * k = b * k → a = b := mul_right_cancel₀ hk'.ne'
    exact fun heq => h.even (heq.imp hcancel hcancel)

theorem neg (h : RoundsTo d n r) : RoundsTo d (-n) (-r) where
  below := by linarith [h.above]
  above := by linarith [h.below]
  even heq := by
    have := h.even (heq.symm.imp (fun h => by linarith) fun h => by linarith)
    omega

theorem apply {m r : ℕ} (h : RoundsTo d m r) (s : Sign) :
    RoundsTo d (s.apply m) (s.apply r) := by
  cases s with
  | negative => exact h.neg
  | positive => exact h

/-- A fraction that is a whole number needs no rounding. -/
theorem of_eq (hd : 0 < d) (h : r * d = n) : RoundsTo d n r := by
  have hd' : (0 : ℤ) < d := by exact_mod_cast hd
  subst h
  exact ⟨by linarith, by linarith, fun heq => by rcases heq with heq | heq <;> linarith⟩

end RoundsTo

/-! ### Rounding to the nearest -/

/-- The mantissa with its two further bits stands for the fraction `n / d`. -/
structure Represents (em : ExtendedMantissa) (n d : ℕ) : Prop where
  whole : em.mantissa * d ≤ n
  below : n < em.mantissa * d + d
  /-- The fraction is at least halfway to the next whole number. -/
  round : em.roundBit = true ↔ 2 * (em.mantissa * d) + d ≤ 2 * n
  /-- It is neither a whole number nor halfway to the next. -/
  sticky : em.stickyBit = true ↔ n ≠ em.mantissa * d ∧ 2 * n ≠ 2 * (em.mantissa * d) + d

/-- What is left over when a quotient is computed is stood for by the two bits. -/
theorem represents_fraction (n : ℕ) {d : ℕ} (hd : 0 < d) :
    Represents (.ofMantissaAndAccuracy (n / d) (accuracyOfFraction (n % d) d)) n d := by
  have hn : n = n / d * d + n % d := (Nat.div_add_mod' n d).symm
  have hlt : n % d < d := Nat.mod_lt n hd
  generalize n / d = q at *
  generalize n % d = rest at *
  subst hn
  unfold accuracyOfFraction
  split
  next hzero =>
    constructor <;> simp [ExtendedMantissa.ofMantissaAndAccuracy, hzero, hd, hd.ne']
  next hne =>
    rcases lt_trichotomy (2 * rest) d with h | h | h
    · rw [compare_lt_iff_lt.2 h]
      constructor <;> simp [ExtendedMantissa.ofMantissaAndAccuracy] <;> omega
    · rw [compare_eq_iff_eq.2 h]
      constructor <;> simp [ExtendedMantissa.ofMantissaAndAccuracy] <;> omega
    · rw [compare_gt_iff_gt.2 h]
      constructor <;> simp [ExtendedMantissa.ofMantissaAndAccuracy] <;> omega

namespace Represents

variable {em : ExtendedMantissa} {n d : ℕ}

/-- A bit that is cut off becomes the round bit, and what the two bits stood for the sticky bit. -/
theorem shiftRightOne (h : Represents em n d) : Represents em.shiftRightOne n (d * 2) := by
  obtain ⟨m, half, rest⟩ := em
  obtain ⟨hwhole, hbelow, hround, hsticky⟩ := h
  dsimp only at hwhole hbelow hround hsticky
  have hm : m * d = m / 2 * (d * 2) + m % 2 * d := by
    conv_lhs => rw [← Nat.div_add_mod m 2]
    ring
  rw [hm] at hwhole hbelow hround hsticky
  rcases Nat.mod_two_eq_zero_or_one m with hbit | hbit <;>
    rw [hbit] at hwhole hbelow hround hsticky <;>
    refine ⟨?_, ?_, ?_, ?_⟩ <;>
    simp only [ExtendedMantissa.shiftRightOne, hbit, Bool.or_eq_true, hround, hsticky] <;>
    generalize m / 2 * (d * 2) = low at *
  · omega
  · omega
  · exact iff_of_false (by decide) (by omega)
  · omega
  · omega
  · omega
  · exact iff_of_true rfl (by omega)
  · omega

/-- Cutting off bits multiplies the denominator. -/
theorem shiftRight (h : Represents em n d) (k : ℕ) : Represents (em >>> k) n (d * 2 ^ k) := by
  induction k with
  | zero =>
      rw [pow_zero, mul_one]
      exact h
  | succ k ih =>
      rw [pow_succ, ← mul_assoc]
      exact ih.shiftRightOne

/-- **Rounding a mantissa with two further bits gives the nearest whole number.** -/
theorem roundsTo (h : Represents em n d) : RoundsTo d n em.roundedMantissa := by
  obtain ⟨m, half, rest⟩ := em
  obtain ⟨hwhole, hbelow, hround, hsticky⟩ := h
  dsimp only at hwhole hbelow hround hsticky
  -- down to `m`, up to `m + 1`, or from halfway to the even one of the two
  have hdown : 2 * n < 2 * (m * d) + d → RoundsTo d n m := fun h =>
    ⟨by ring_nf; omega, by ring_nf; omega, by ring_nf; omega⟩
  have hup : 2 * (m * d) + d < 2 * n → RoundsTo d n (m + 1) := fun h =>
    ⟨by ring_nf; omega, by ring_nf; omega, by ring_nf; omega⟩
  have htie : 2 * n = 2 * (m * d) + d → RoundsTo d n (m + m % 2 : ℕ) := fun h => by
    rcases Nat.mod_two_eq_zero_or_one m with hbit | hbit <;> rw [hbit] <;>
      exact ⟨by push_cast; ring_nf; omega, by push_cast; ring_nf; omega, fun _ => by omega⟩
  cases half <;> cases rest <;>
    simp only [Bool.false_eq_true, false_iff, true_iff, not_and_or, not_not] at hround hsticky
  · exact hdown (by omega)
  · exact hdown (by omega)
  · exact htie (by omega)
  · exact hup (by omega)

end Represents
/-! ### Rounding keeps the order -/

theorem mantissa_ofMantissaAndAccuracy (m : ℕ) (a : Accuracy) :
    (ExtendedMantissa.ofMantissaAndAccuracy m a).mantissa = m := by
  rcases a with _ | (_ | _ | _) <;> rfl

/-- Rounding gives the whole number of units of the last place that is nearest. -/
theorem Represents.roundsTo_roundWithAccuracy (s : Sign) {m n d : ℕ} {e t : ℤ} {a : Accuracy}
    (h : Represents (.ofMantissaAndAccuracy m a) n d) (hm : 0 < m)
    (ht : max ((m.log2 : ℤ) + 1 + e - 53) (-1074) = t) (hle : e ≤ t) :
    ∃ r : ℕ, RoundsTo (d * 2 ^ (t - e).toNat) n r ∧ r ≤ 2 ^ 53 ∧ (2 ^ 52 ≤ r ∨ t = -1074) ∧
      ticksOf (settled (roundWithAccuracy Format.binary64 s m e a)) =
        s.apply (min (r * 2 ^ (t + 1074).toNat) limit : ℕ) := by
  have hfirst : shiftToTargetExponent Format.binary64 m e a =
      (ExtendedMantissa.ofMantissaAndAccuracy m a >>>
        (Format.binary64.targetExponent (Float.Model.totalExponent m e) - e).toNat,
        e + (Format.binary64.targetExponent (Float.Model.totalExponent m e) - e).toNat) := rfl
  rw [targetExponent_eq, Float.Model.totalExponent, ht] at hfirst
  have hrounds := (h.shiftRight (t - e).toNat).roundsTo
  obtain ⟨hlow, hhigh⟩ :=
    roundedMantissa_bounds (ExtendedMantissa.ofMantissaAndAccuracy m a >>> (t - e).toNat)
  rw [mantissa_shiftRight, mantissa_ofMantissaAndAccuracy] at hlow hhigh
  generalize hr : (ExtendedMantissa.ofMantissaAndAccuracy m a >>> (t - e).toNat).roundedMantissa = r
    at hrounds hlow hhigh
  obtain ⟨hq₁, hq₂⟩ := quotient_bounds (n := (t - e).toNat) hm ht (by omega)
  have hfull : 2 ^ 52 ≤ r ∨ t = -1074 := hq₂.imp_left fun h => h.trans hlow
  refine ⟨r, hrounds, by omega, hfull, ?_⟩
  rcases Nat.eq_zero_or_pos r with rfl | hpos
  · -- nothing is left of the number
    have hzero : (shiftToTargetExponent Format.binary64 0 (e + (t - e).toNat) .exact).1.mantissa =
        0 := by
      rw [shiftToTargetExponent_exact, mantissa_shiftRight]
      exact Nat.zero_div _
    have hround : roundWithAccuracy Format.binary64 s m e a = .zero s := by
      simp only [roundWithAccuracy, hfirst, hr]
      exact dif_pos hzero
    rw [hround, settled_eq_self (u := .zero s) ⟨trivial, trivial⟩, ticksOf_zero, zero_mul,
      Nat.zero_min]
    cases s <;> rfl
  · obtain ⟨r', t', h₃, h₄, hpos', hrounded, hval⟩ := shiftToTargetExponent_rounded hpos
      (by omega) (show -1074 ≤ t by omega) hfull
    rw [roundWithAccuracy_eq (by rw [hfirst]; exact hr) (by rw [hfirst]; omega) h₃ h₄ hpos',
      settled, ticksOf_unpack_pack hrounded, hval]

/-- An exact mantissa stands for itself. -/
theorem represents_exact (m : ℕ) : Represents (.ofMantissaAndAccuracy m .exact) m 1 := by
  have h := represents_fraction m one_pos
  rwa [Nat.div_one, Nat.mod_one] at h

/-- An exact mantissa is rounded to the nearest whole number of units of the last place. -/
theorem roundsTo_roundWithAccuracy (s : Sign) {m : ℕ} {e t : ℤ} (hm : 0 < m)
    (ht : max ((m.log2 : ℤ) + 1 + e - 53) (-1074) = t) (hle : e ≤ t) :
    ∃ r : ℕ, RoundsTo (2 ^ (t - e).toNat) m r ∧ r ≤ 2 ^ 53 ∧ (2 ^ 52 ≤ r ∨ t = -1074) ∧
      ticksOf (settled (roundWithAccuracy Format.binary64 s m e .exact)) =
        s.apply (min (r * 2 ^ (t + 1074).toNat) limit : ℕ) := by
  have h := (represents_exact m).roundsTo_roundWithAccuracy s hm ht hle
  rwa [one_mul] at h

/-- **Rounding keeps the order** of exact numbers, which are counted in units of `2 ^ l`. -/
theorem round_le_round {m m' : ℕ} {e e' l : ℤ} (hm : 0 < m) (hm' : 0 < m') (hl : l ≤ e)
    (hl' : l ≤ e') (he : e ≤ max ((m.log2 : ℤ) + 1 + e - 53) (-1074))
    (he' : e' ≤ max ((m'.log2 : ℤ) + 1 + e' - 53) (-1074))
    (h : m * 2 ^ (e - l).toNat ≤ m' * 2 ^ (e' - l).toNat) :
    ticksOf (settled (roundWithAccuracy Format.binary64 .positive m e .exact)) ≤
      ticksOf (settled (roundWithAccuracy Format.binary64 .positive m' e' .exact)) := by
  have hlog : (m.log2 : ℤ) + e ≤ m'.log2 + e' := by
    have hpow : 0 < m * 2 ^ (e - l).toNat := by positivity
    have := (Nat.le_log2 (hpow.trans_le h).ne').2 ((Nat.log2_self_le hpow.ne').trans h)
    rw [log2_mul_two_pow hm.ne', log2_mul_two_pow hm'.ne'] at this
    omega
  obtain ⟨r, hr, hr53, -, hticks⟩ := roundsTo_roundWithAccuracy .positive hm rfl he
  obtain ⟨r', hr', -, hfull', hticks'⟩ := roundsTo_roundWithAccuracy .positive hm' rfl he'
  rw [hticks, hticks']
  generalize ht : max ((m.log2 : ℤ) + 1 + e - 53) (-1074) = t at *
  generalize ht' : max ((m'.log2 : ℤ) + 1 + e' - 53) (-1074) = t' at *
  have hle : r * 2 ^ (t + 1074).toNat ≤ r' * 2 ^ (t' + 1074).toNat := by
    rcases (show t ≤ t' by omega).lt_or_eq with hlt | heq
    · -- the unit of the larger one is a larger power of two
      exact (Nat.mul_le_mul_right _ hr53).trans
        (two_pow_mul_le (hfull'.resolve_right (by omega)) (by omega))
    · have hscale : ∀ {f : ℤ}, f ≤ t → l ≤ f →
          2 ^ (t - f).toNat * 2 ^ (f - l).toNat = 2 ^ (t - l).toNat := by
        intro f hft hlf
        rw [← pow_add]
        congr 1
        omega
      have hnear := hr.scale (k := 2 ^ (e - l).toNat) (by positivity)
      have hnear' := hr'.scale (k := 2 ^ (e' - l).toNat) (by positivity)
      rw [← heq] at hnear' he' ⊢
      rw [hscale he hl] at hnear
      rw [hscale he' hl'] at hnear'
      exact Nat.mul_le_mul_right _ (Int.ofNat_le.1
        (hnear.mono (by positivity) hnear' (by exact_mod_cast h)))
  change ((min _ limit : ℕ) : ℤ) ≤ (min _ limit : ℕ)
  omega

end Vantage.Binary64
