/-
**Quotients and multiples of natural numbers, and how far they are off.**

A quotient or a product that is rounded to 53 bits differs from the exact one by at most one part in
`2 ^ 53`, as long as it is neither so small nor so large that the format ends. Two such steps, a
quotient of natural numbers and then a multiple of it, are off by less than one part in `2 ^ 52`
together, up to a square; so `i * (n / k)` comes close enough to `i * n / k`, which is a whole
number of `k`-th parts, to lie less than a `k`-th part away from it.

Main definitions:

* `Vantage.Binary64.Close` — one count is off from another by at most one part in `2 ^ 53`.

Main results:

* `Vantage.Binary64.close_div` — a quotient of natural numbers is close to the exact one;
* `Vantage.Binary64.close_mul` — so is a multiple of a number;
* `Vantage.Binary64.ticks_position` — **`i * (n / k)` lies less than a `k`-th part away from
  `i * n / k`**.
-/

import Vantage.Proofs.Binary64.Multiples

set_option relaxedAutoImplicit false
set_option autoImplicit false

namespace Vantage.Binary64

open Float.Model (UnpackedFloat Format)
open Float.Model.UnpackedFloat

/-! ### Counts that are close -/

/-- The second count is off from the first by at most one part in `2 ^ 53` of the first. -/
structure Close (n r : ℕ) : Prop where
  below : 2 ^ 53 * n ≤ 2 ^ 53 * r + n
  above : 2 ^ 53 * r ≤ 2 ^ 53 * n + n

namespace Close

variable {n r k : ℕ}

/-- A whole number of at least 53 bits that is nearest to a fraction is close to it. -/
theorem of_roundsTo {d : ℕ} (h : RoundsTo d n r) (hfull : 2 ^ 52 * d ≤ n) : Close n (r * d) := by
  have hlow : 2 * n ≤ 2 * (r * d) + d := by
    have := h.below
    push_cast [← Int.ofNat_le]
    linarith
  have hhigh : 2 * (r * d) ≤ 2 * n + d := by
    have := h.above
    push_cast [← Int.ofNat_le]
    linarith
  constructor <;> omega

theorem scale (h : Close n r) (k : ℕ) : Close (n * k) (r * k) where
  below := by
    have := Nat.mul_le_mul_right k h.below
    linarith
  above := by
    have := Nat.mul_le_mul_right k h.above
    linarith

end Close

/-! ### Rounding within the format -/

/-- A fraction of 53 bits or more, not beyond the largest exponent, is rounded to a number that is
close to it. -/
theorem close_roundWithAccuracy {m n d : ℕ} {e t : ℤ} {a : Accuracy}
    (h : Represents (.ofMantissaAndAccuracy m a) n d) (hm : 0 < m)
    (ht : (m.log2 : ℤ) + 1 + e - 53 = t) (hle : e ≤ t) (hlow : -1074 ≤ t) (hhigh : t ≤ 970) :
    ∃ r : ℕ, ticksOf (settled (roundWithAccuracy Format.binary64 .positive m e a)) =
        (r * 2 ^ (t + 1074).toNat : ℕ) ∧ Close n (r * (d * 2 ^ (t - e).toNat)) := by
  obtain ⟨r, hr, hr53, -, hticks⟩ :=
    h.roundsTo_roundWithAccuracy .positive hm (by omega : max _ (-1074) = t) hle
  refine ⟨r, ?_, .of_roundsTo hr ?_⟩
  · have hlimit : r * 2 ^ (t + 1074).toNat ≤ limit := by
      have hplace := limitPlace_eq
      calc r * 2 ^ (t + 1074).toNat ≤ 2 ^ 53 * 2 ^ (t + 1074).toNat := Nat.mul_le_mul_right _ hr53
        _ = 2 ^ (53 + (t + 1074).toNat) := by rw [pow_add]
        _ ≤ 2 ^ limitPlace := Nat.pow_le_pow_right (by norm_num) (by omega)
    rw [hticks, min_eq_left hlimit]
    rfl
  · -- the mantissa has as many bits as are cut off, and 53 more
    have hbits : 2 ^ 52 * 2 ^ (t - e).toNat ≤ m := by
      rw [← pow_add]
      exact (Nat.pow_le_pow_right (by norm_num) (by omega)).trans (Nat.log2_self_le hm.ne')
    have hwhole := h.whole
    rw [mantissa_ofMantissaAndAccuracy] at hwhole
    calc 2 ^ 52 * (d * 2 ^ (t - e).toNat) = 2 ^ 52 * 2 ^ (t - e).toNat * d := by ring
      _ ≤ m * d := Nat.mul_le_mul_right _ hbits
      _ ≤ n := hwhole

/-- The exponent of a rounded number whose ticks lie between two powers of two. -/
theorem exponent_of_ticks {m a b : ℕ} {e : ℤ} (h : Rounded m e) (ha : 53 ≤ a)
    (hlow : 2 ^ a ≤ m * 2 ^ (e + 1074).toNat) (hhigh : m * 2 ^ (e + 1074).toNat < 2 ^ b) :
    (a : ℤ) - 1127 < e ∧ e < (b : ℤ) - 1126 := by
  obtain ⟨hm, he, hfull⟩ := h
  have hfirst : a < 53 + (e + 1074).toNat := by
    refine (Nat.pow_lt_pow_iff_right (by norm_num : 1 < 2)).1 (hlow.trans_lt ?_)
    rw [pow_add]
    exact Nat.mul_lt_mul_of_pos_right hm (by positivity)
  have hfull' : 2 ^ 52 ≤ m := hfull.resolve_right (by omega)
  have hsecond : 52 + (e + 1074).toNat < b := by
    refine (Nat.pow_lt_pow_iff_right (by norm_num : 1 < 2)).1 (lt_of_le_of_lt ?_ hhigh)
    rw [pow_add]
    exact Nat.mul_le_mul_right _ hfull'
  omega

/-- A natural number of at most 53 bits has a full mantissa, and no positive exponent. -/
theorem full_ofNat {n : ℕ} (hn : 0 < n) (hn53 : n < 2 ^ 53) :
    ∃ r t hr, Binary64.parts (Float.ofNat n) = .finite .positive r t hr ∧ Rounded r t ∧
      r.log2 = 52 ∧ -53 < t ∧ t ≤ 0 ∧ r * 2 ^ (t + 1074).toNat = n * 2 ^ 1074 := by
  obtain ⟨r, t, hr, hparts, hrounded, -, hval⟩ := parts_ofNat hn hn53
  have hlow : 2 ^ 1074 ≤ r * 2 ^ (t + 1074).toNat := by
    rw [hval]
    exact Nat.le_mul_of_pos_left _ hn
  have hhigh : r * 2 ^ (t + 1074).toNat < 2 ^ 1127 := by
    rw [hval, show (1127 : ℕ) = 53 + 1074 from rfl, pow_add]
    exact Nat.mul_lt_mul_of_pos_right hn53 (by positivity)
  have ht := exponent_of_ticks hrounded (by norm_num) hlow hhigh
  have hfull : 2 ^ 52 ≤ r := hrounded.2.2.resolve_right (by omega)
  exact ⟨r, t, hr, hparts, hrounded, (Nat.log2_eq_iff hr.ne').2 ⟨hfull, hrounded.1⟩, by omega,
    by omega, hval⟩

/-- The ticks of a product of two numbers, against those of the numbers. -/
theorem product_ticks (r m : ℕ) {t e : ℤ} (ht : -1074 ≤ t) (he : -1074 ≤ e)
    (hte : -1074 ≤ t + e) : r * m * 2 ^ (t + e + 1074).toNat * 2 ^ 1074 =
      r * 2 ^ (t + 1074).toNat * (m * 2 ^ (e + 1074).toNat) := by
  calc r * m * 2 ^ (t + e + 1074).toNat * 2 ^ 1074
      = r * m * 2 ^ ((t + e + 1074).toNat + 1074) := by rw [pow_add, mul_assoc]
    _ = r * m * 2 ^ ((t + 1074).toNat + (e + 1074).toNat) := by
        congr 2
        omega
    _ = r * 2 ^ (t + 1074).toNat * (m * 2 ^ (e + 1074).toNat) := by
        rw [pow_add]
        ring

/-! ### Quotients of natural numbers -/

/-- The quotient of two full mantissas is computed to at least 53 bits, and rounded. -/
theorem div_full {m n : ℕ} {e f : ℤ} (hm : 0 < m) (hn : 0 < n) (hm52 : m.log2 = 52)
    (hn52 : n.log2 = 52) (hlow : -1000 ≤ e - f) :
    UnpackedFloat.div Format.binary64 (.finite .positive m e hm) (.finite .positive n f hn) =
      roundWithAccuracy Format.binary64 .positive (m * 2 ^ 53 / n) (e - f - 53)
        (accuracyOfFraction (m * 2 ^ 53 % n) n) := by
  have htarget : min (e - f) (Format.binary64.targetExponent
      (Float.Model.totalExponent m e - Float.Model.totalExponent n f)) = e - f - 53 := by
    rw [targetExponent_eq, Float.Model.totalExponent, Float.Model.totalExponent, hm52, hn52]
    omega
  have hshift : (e - f - (e - f - 53)).toNat = 53 := by omega
  simp only [UnpackedFloat.div, divCore, htarget, hshift, Nat.shiftLeft_eq]
  rfl

/-- The bits of the quotient of two full mantissas. -/
theorem log2_quotient {m n : ℕ} (hm : 0 < m) (hn : 0 < n) (hm52 : m.log2 = 52)
    (hn52 : n.log2 = 52) : 0 < m * 2 ^ 53 / n ∧ 52 ≤ (m * 2 ^ 53 / n).log2 ∧
      (m * 2 ^ 53 / n).log2 ≤ 53 := by
  obtain ⟨hm₁, hm₂⟩ := (Nat.log2_eq_iff hm.ne').1 hm52
  obtain ⟨hn₁, hn₂⟩ := (Nat.log2_eq_iff hn.ne').1 hn52
  have hlow : 2 ^ 52 ≤ m * 2 ^ 53 / n := by
    rw [Nat.le_div_iff_mul_le hn]
    omega
  have hhigh : m * 2 ^ 53 / n < 2 ^ 54 := by
    rw [Nat.div_lt_iff_lt_mul hn]
    omega
  have hpos : 0 < m * 2 ^ 53 / n := by omega
  exact ⟨hpos, (Nat.le_log2 hpos.ne').2 hlow, Nat.le_of_lt_succ ((Nat.log2_lt hpos.ne').2 hhigh)⟩

/-- The ticks of a quotient of natural numbers are close to the exact ones. -/
theorem ticks_div {n k : ℕ} (hn : 0 < n) (hn53 : n < 2 ^ 53) (hk : 0 < k) (hk53 : k < 2 ^ 53) :
    ∃ c : ℕ, ticks (Float.ofNat n / Float.ofNat k) = c ∧ Close (n * 2 ^ 1074) (c * k) := by
  obtain ⟨r₁, t₁, hr₁, hparts₁, -, hlog₁, hlow₁, hhigh₁, hval₁⟩ := full_ofNat hn hn53
  obtain ⟨r₂, t₂, hr₂, hparts₂, -, hlog₂, hlow₂, hhigh₂, hval₂⟩ := full_ofNat hk hk53
  obtain ⟨hpos, hbits, hbits'⟩ := log2_quotient hr₁ hr₂ hlog₁ hlog₂
  obtain ⟨r, hticks, hclose⟩ := close_roundWithAccuracy (represents_fraction (r₁ * 2 ^ 53) hr₂)
    (e := t₁ - t₂ - 53) hpos rfl (by omega) (by omega) (by omega)
  generalize ht : ((r₁ * 2 ^ 53 / r₂).log2 : ℤ) + 1 + (t₁ - t₂ - 53) - 53 = t at hticks hclose
  have hdiv : ticks (Float.ofNat n / Float.ofNat k) = (r * 2 ^ (t + 1074).toNat : ℕ) := by
    have hparts : Binary64.parts (Float.ofNat n / Float.ofNat k) = settled
        (UnpackedFloat.div Format.binary64 (parts (Float.ofNat n)) (parts (Float.ofNat k))) := rfl
    rw [ticks, hparts, hparts₁, hparts₂, div_full hr₁ hr₂ hlog₁ hlog₂ (by omega)]
    exact hticks
  refine ⟨_, hdiv, ?_⟩
  have hscaled := hclose.scale (2 ^ (t₁ - 53 + 1074).toNat)
  have hexact : r₁ * 2 ^ 53 * 2 ^ (t₁ - 53 + 1074).toNat = n * 2 ^ 1074 := by
    rw [← hval₁, mul_assoc, ← pow_add]
    congr 2
    omega
  have hrounded : r * (r₂ * 2 ^ (t - (t₁ - t₂ - 53)).toNat) * 2 ^ (t₁ - 53 + 1074).toNat =
      r * 2 ^ (t + 1074).toNat * k := by
    refine Nat.eq_of_mul_eq_mul_right (show 0 < 2 ^ 1074 by positivity) ?_
    have hplace : r * (r₂ * 2 ^ (t - (t₁ - t₂ - 53)).toNat) * 2 ^ (t₁ - 53 + 1074).toNat =
        r * r₂ * 2 ^ (t + t₂ + 1074).toNat := by
      rw [← mul_assoc, mul_assoc, ← pow_add]
      congr 2
      omega
    rw [hplace, product_ticks r r₂ (by omega) (by omega) (by omega), hval₂, ← mul_assoc]
  rwa [hexact, hrounded] at hscaled

/-- A count that is close to the ticks of such a quotient lies between two powers of two. -/
theorem Close.bounds {n k c : ℕ} (hn : 0 < n) (hn53 : n < 2 ^ 53) (hk : 0 < k) (hk53 : k < 2 ^ 53)
    (h : Close (n * 2 ^ 1074) (c * k)) : 2 ^ 1020 ≤ c ∧ c < 2 ^ 1128 := by
  have hone : (2 : ℕ) ^ 1074 ≤ n * 2 ^ 1074 := Nat.le_mul_of_pos_left _ hn
  obtain ⟨hbelow, habove⟩ := h
  constructor
  · by_contra hlt
    have hck : c * k < 2 ^ 1073 := by
      rw [show (1073 : ℕ) = 1020 + 53 from rfl, pow_add]
      exact Nat.mul_lt_mul'' (not_le.1 hlt) hk53
    have hhalf : (2 : ℕ) ^ 1074 = 2 * 2 ^ 1073 := by rw [← pow_succ']
    generalize (2 : ℕ) ^ 1073 = half at *
    generalize (2 : ℕ) ^ 1074 = one at *
    generalize n * one = exact at *
    omega
  · have hck : c ≤ c * k := Nat.le_mul_of_pos_right c hk
    have hexact : n * 2 ^ 1074 < 2 ^ 1127 := by
      rw [show (1127 : ℕ) = 53 + 1074 from rfl, pow_add]
      exact Nat.mul_lt_mul_of_pos_right hn53 (by positivity)
    have hdouble : (2 : ℕ) ^ 1128 = 2 * 2 ^ 1127 := by rw [← pow_succ']
    generalize (2 : ℕ) ^ 1128 = double at *
    generalize (2 : ℕ) ^ 1127 = large at *
    generalize n * 2 ^ 1074 = exact at *
    omega

/-- **A quotient of natural numbers** is a finite number that is close to the exact quotient. -/
theorem close_div {n k : ℕ} (hn : 0 < n) (hn53 : n < 2 ^ 53) (hk : 0 < k) (hk53 : k < 2 ^ 53) :
    ∃ m e hm, parts (Float.ofNat n / Float.ofNat k) = .finite .positive m e hm ∧ Rounded m e ∧
      -107 < e ∧ e < 2 ∧ Close (n * 2 ^ 1074) (m * 2 ^ (e + 1074).toNat * k) := by
  obtain ⟨c, hticks, hclose⟩ := ticks_div hn hn53 hk hk53
  obtain ⟨hlow, hhigh⟩ := hclose.bounds hn hn53 hk hk53
  rcases (hasSign_div_ofNat n hk hk53).cases with h | h | ⟨m, e, hm, h⟩
  · rw [ticks, h, ticksOf_infinity_positive, limit] at hticks
    have hplace := limitPlace_eq
    rw [← Int.ofNat_inj.1 hticks] at hhigh
    have := (Nat.pow_lt_pow_iff_right (by norm_num)).1 hhigh
    omega
  · rw [ticks, h, ticksOf_zero] at hticks
    have : 0 < 2 ^ 1020 := by positivity
    omega
  · have hpacked := packed_parts (Float.ofNat n / Float.ofNat k)
    rw [h] at hpacked
    rw [ticks, h, ticksOf] at hticks
    obtain rfl : m * 2 ^ (e + 1074).toNat = c := Int.ofNat_inj.1 hticks
    have he := exponent_of_ticks hpacked.rounded (by norm_num) hlow hhigh
    exact ⟨m, e, hm, h, hpacked.rounded, by omega, by omega, hclose⟩

/-! ### Multiples -/

/-- **A multiple of a number** is close to the exact one, if the format does not end there. -/
theorem close_mul {i m : ℕ} {e : ℤ} {hm : 0 < m} {x : Float} (hi : 0 < i) (hi53 : i < 2 ^ 53)
    (hx : parts x = .finite .positive m e hm) (hrounded : Rounded m e) (hlow : -900 ≤ e)
    (hhigh : e ≤ 900) :
    ∃ p : ℕ, ticks (Float.ofNat i * x) = p ∧ Close (i * (m * 2 ^ (e + 1074).toNat)) p := by
  obtain ⟨r, t, hr, hparts, -, hlog, htlow, hthigh, hval⟩ := full_ofNat hi hi53
  obtain ⟨hr52, hr53⟩ := (Nat.log2_eq_iff hr.ne').1 hlog
  have hpos : 0 < r * m := Nat.mul_pos hr hm
  have hbits : 52 ≤ (r * m).log2 :=
    (Nat.le_log2 hpos.ne').2 (hr52.trans (Nat.le_mul_of_pos_right r hm))
  have hbits' : (r * m).log2 < 106 := by
    rw [Nat.log2_lt hpos.ne', show (106 : ℕ) = 53 + 53 from rfl, pow_add]
    exact Nat.mul_lt_mul'' hr53 hrounded.1
  obtain ⟨q, hticks, hclose⟩ := close_roundWithAccuracy (represents_exact (r * m)) (e := t + e)
    hpos rfl (by omega) (by omega) (by omega)
  generalize hplace : ((r * m).log2 : ℤ) + 1 + (t + e) - 53 = u at hticks hclose
  refine ⟨q * 2 ^ (u + 1074).toNat, ?_, ?_⟩
  · rw [ticks, parts_mul, hparts, hx]
    exact hticks
  · have hscaled := hclose.scale (2 ^ (t + e + 1074).toNat)
    have hexact : r * m * 2 ^ (t + e + 1074).toNat = i * (m * 2 ^ (e + 1074).toNat) := by
      refine Nat.eq_of_mul_eq_mul_right (show 0 < 2 ^ 1074 by positivity) ?_
      rw [product_ticks r m (by omega) (by omega) (by omega), hval, mul_right_comm]
    have hrest : q * (1 * 2 ^ (u - (t + e)).toNat) * 2 ^ (t + e + 1074).toNat =
        q * 2 ^ (u + 1074).toNat := by
      rw [one_mul, mul_assoc, ← pow_add]
      congr 2
      omega
    rwa [hexact, hrest] at hscaled

/-! ### Positions -/

/-- **The multiple `i * (n / k)` lies less than a `k`-th part away from `i * n / k`**, when `n * k`
has at most 52 bits. -/
theorem ticks_position {n k i : ℕ} (hn : 0 < n) (hi : 0 < i) (hik : i < k)
    (hsize : n * k < 2 ^ 52) :
    ∃ p : ℕ, ticks (Float.ofNat i * (Float.ofNat n / Float.ofNat k)) = p ∧
      i * n * 2 ^ 1074 < p * k + 2 ^ 1074 ∧ p * k < i * n * 2 ^ 1074 + 2 ^ 1074 := by
  have hn52 : n < 2 ^ 52 := (Nat.le_mul_of_pos_right n (by omega)).trans_lt hsize
  have hk52 : k < 2 ^ 52 := (Nat.le_mul_of_pos_left k hn).trans_lt hsize
  have hin : i * n < 2 ^ 52 := (Nat.mul_le_mul_right n hik.le).trans_lt (by rwa [Nat.mul_comm])
  obtain ⟨m, e, hm, hparts, hrounded, hlow, hhigh, hdiv⟩ :=
    close_div hn (by omega) (show 0 < k by omega) (by omega)
  obtain ⟨p, hticks, hmul⟩ := close_mul hi (by omega) hparts hrounded (by omega) (by omega)
  refine ⟨p, hticks, ?_⟩
  have hfirst := hdiv.scale i
  have hsecond := hmul.scale k
  rw [show i * (m * 2 ^ (e + 1074).toNat) * k = m * 2 ^ (e + 1074).toNat * k * i by ring] at hsecond
  rw [mul_right_comm, mul_comm n i] at hfirst
  have hexact : i * n * 2 ^ 1074 + 2 ^ 1074 ≤ 2 ^ 52 * 2 ^ 1074 := by
    rw [← Nat.succ_mul]
    exact Nat.mul_le_mul_right _ hin
  have hpos : 0 < 2 ^ 1074 := by positivity
  obtain ⟨h₁, h₂⟩ := hfirst
  obtain ⟨h₃, h₄⟩ := hsecond
  generalize (2 : ℕ) ^ 1074 = one at *
  generalize i * n * one = exact at *
  generalize m * 2 ^ (e + 1074).toNat * k * i = middle at *
  generalize p * k = rounded at *
  omega

end Vantage.Binary64
