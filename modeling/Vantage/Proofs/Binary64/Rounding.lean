/-
**Rounding a mantissa to 53 bits.**

Every finite binary64 number is a whole multiple of the least positive one, `2 ^ -1074`, which is
called a tick here.  Counted in ticks, rounding takes a natural number to one with at most 53
significant bits.  Of the direction in which it rounds only this matters: it never steps over a
number that needs no rounding.

Main definitions:

* `Vantage.Binary64.Short` — a count of ticks with at most 53 significant bits;
* `Vantage.Binary64.Near` — no short number lies strictly between a count and what it is rounded to.

Main results:

* `Vantage.Binary64.near_round` — rounding a mantissa and an exponent gives a rounded number, and
  never steps over a short number.
-/

import Vantage.Proofs.Binary64.Packing

set_option relaxedAutoImplicit false
set_option autoImplicit false

namespace Vantage.Binary64

open Float.Model (UnpackedFloat Format totalExponent)
open Float.Model.UnpackedFloat

/-! ### Short numbers -/

/-- A number with at most 53 significant bits. -/
def Short (c : ℕ) : Prop := ∃ a k, a < 2 ^ 53 ∧ c = a * 2 ^ k

/-- No short number lies strictly between the two numbers. -/
def Near (n r : ℕ) : Prop := ∀ c, Short c → (c ≤ n → c ≤ r) ∧ (n ≤ c → r ≤ c)

theorem short_zero : Short 0 := ⟨0, 0, by norm_num, by norm_num⟩

/-- Cutting off low bits, and then perhaps adding one, steps over no short number: the bits that
are left number 53, or none were cut off. -/
theorem near_of_quotient {m k n r : ℕ} (hlow : m / 2 ^ n ≤ r) (hhigh : r ≤ m / 2 ^ n + 1)
    (hexact : 2 ^ n ∣ m → r = m / 2 ^ n) (hbits : k + n = 0 ∨ 2 ^ 52 ≤ m / 2 ^ n) :
    Near (m * 2 ^ k) (r * 2 ^ (k + n)) := by
  have hn : 0 < 2 ^ n := by positivity
  have hk : 0 < 2 ^ k := by positivity
  have hq : m / 2 ^ n * 2 ^ n ≤ m := Nat.div_mul_le_self m (2 ^ n)
  rintro c ⟨a, j, ha, rfl⟩
  by_cases hj : k + n ≤ j
  · -- the short number is a multiple of the last bit that is kept
    obtain ⟨i, rfl⟩ := Nat.exists_eq_add_of_le hj
    have hc : a * 2 ^ (k + n + i) = a * 2 ^ i * 2 ^ n * 2 ^ k := by ring
    have hr : r * 2 ^ (k + n) = r * 2 ^ n * 2 ^ k := by ring
    rw [hc, hr]
    constructor
    · intro h
      have h₁ : a * 2 ^ i * 2 ^ n ≤ m := Nat.le_of_mul_le_mul_right h hk
      have h₂ : a * 2 ^ i ≤ m / 2 ^ n := (Nat.le_div_iff_mul_le hn).2 h₁
      exact Nat.mul_le_mul_right _ (Nat.mul_le_mul_right _ (h₂.trans hlow))
    · intro h
      have h₁ : m ≤ a * 2 ^ i * 2 ^ n := Nat.le_of_mul_le_mul_right h hk
      have h₂ : r ≤ a * 2 ^ i := by
        by_cases hd : 2 ^ n ∣ m
        · rw [hexact hd]
          exact Nat.div_le_of_le_mul (by rwa [Nat.mul_comm])
        · have hne : m ≠ a * 2 ^ i * 2 ^ n := fun he => hd ⟨a * 2 ^ i, by rw [he]; ring⟩
          have hlt : m / 2 ^ n < a * 2 ^ i :=
            (Nat.div_lt_iff_lt_mul hn).2 (lt_of_le_of_ne h₁ hne)
          omega
      exact Nat.mul_le_mul_right _ (Nat.mul_le_mul_right _ h₂)
  · -- the short number lies below the least one that has 53 bits at this place
    have hfull : 2 ^ 52 ≤ m / 2 ^ n := hbits.resolve_left (by omega)
    have hlt : a * 2 ^ j < 2 ^ 52 * 2 ^ (k + n) :=
      calc a * 2 ^ j < 2 ^ 53 * 2 ^ j := Nat.mul_lt_mul_of_pos_right ha (by positivity)
        _ = 2 ^ (53 + j) := by rw [pow_add]
        _ ≤ 2 ^ (52 + (k + n)) := Nat.pow_le_pow_right (by norm_num) (by omega)
        _ = 2 ^ 52 * 2 ^ (k + n) := by rw [pow_add]
    have hqm : 2 ^ 52 * 2 ^ (k + n) ≤ m * 2 ^ k :=
      calc 2 ^ 52 * 2 ^ (k + n) ≤ m / 2 ^ n * 2 ^ (k + n) := Nat.mul_le_mul_right _ hfull
        _ = m / 2 ^ n * 2 ^ n * 2 ^ k := by ring
        _ ≤ m * 2 ^ k := Nat.mul_le_mul_right _ hq
    constructor
    · intro _
      exact hlt.le.trans (Nat.mul_le_mul_right _ (hfull.trans hlow))
    · intro h
      omega

/-! ### Cutting off bits -/

theorem mantissa_shiftRight (em : ExtendedMantissa) (n : ℕ) :
    (em >>> n).mantissa = em.mantissa / 2 ^ n := by
  induction n with
  | zero =>
      rw [pow_zero, Nat.div_one]
      rfl
  | succ n ih =>
      change (em >>> n).mantissa / 2 = _
      rw [ih, Nat.div_div_eq_div_mul, pow_succ]

/-- If only zeros are cut off, nothing is left to round. -/
theorem shiftRight_of_dvd {m n : ℕ} (h : 2 ^ n ∣ m) :
    (⟨m, false, false⟩ : ExtendedMantissa) >>> n = ⟨m / 2 ^ n, false, false⟩ := by
  induction n with
  | zero =>
      rw [pow_zero, Nat.div_one]
      rfl
  | succ n ih =>
      have hdvd : 2 ^ n ∣ m := (pow_dvd_pow 2 (Nat.le_succ n)).trans h
      have heven : m / 2 ^ n % 2 = 0 := by
        obtain ⟨b, rfl⟩ := h
        rw [pow_succ, Nat.mul_assoc, Nat.mul_div_cancel_left _ (by positivity)]
        exact Nat.mul_mod_right 2 b
      change ExtendedMantissa.shiftRightOne ((⟨m, false, false⟩ : ExtendedMantissa) >>> n) = _
      rw [ih hdvd]
      simp [ExtendedMantissa.shiftRightOne, heven, Nat.div_div_eq_div_mul, pow_succ]

/-- Rounding keeps the mantissa or adds one to it. -/
theorem roundedMantissa_bounds (em : ExtendedMantissa) :
    em.mantissa ≤ em.roundedMantissa ∧ em.roundedMantissa ≤ em.mantissa + 1 := by
  obtain ⟨m, r, s⟩ := em
  cases r <;> cases s <;>
    simp only [ExtendedMantissa.roundedMantissa, ExtendedMantissa.accuracy,
      Accuracy.roundToNearestEven] <;> omega

/-! ### The place of the last bit -/

theorem targetExponent_eq (t : ℤ) : Format.binary64.targetExponent t = max (t - 53) (-1074) := rfl

theorem log2_mul_two_pow {m : ℕ} (hm : m ≠ 0) (k : ℕ) : (m * 2 ^ k).log2 = m.log2 + k := by
  rw [Nat.log2_eq_iff (by positivity)]
  have h₁ := Nat.log2_self_le hm
  have h₂ := @Nat.lt_log2_self m
  constructor
  · rw [pow_add]
    exact Nat.mul_le_mul_right _ h₁
  · rw [show m.log2 + k + 1 = m.log2 + 1 + k by omega, pow_add]
    exact Nat.mul_lt_mul_of_pos_right h₂ (by positivity)

/-- Shifting an exact mantissa cuts off the bits below the place aimed at. -/
theorem shiftToTargetExponent_exact (m : ℕ) (e : ℤ) :
    shiftToTargetExponent Format.binary64 m e .exact =
      ((⟨m, false, false⟩ : ExtendedMantissa) >>>
        (Format.binary64.targetExponent (totalExponent m e) - e).toNat,
        e + (Format.binary64.targetExponent (totalExponent m e) - e).toNat) := rfl

/-- A mantissa that rounding has filled up to `2 ^ 53` is halved; any other stays. -/
theorem shiftToTargetExponent_rounded {r : ℕ} {t : ℤ} (hpos : 0 < r) (hr : r ≤ 2 ^ 53)
    (ht : -1074 ≤ t) (hfull : 2 ^ 52 ≤ r ∨ t = -1074) :
    ∃ r' t', (shiftToTargetExponent Format.binary64 r t .exact).1.mantissa = r' ∧
      (shiftToTargetExponent Format.binary64 r t .exact).2 = t' ∧ 0 < r' ∧ Rounded r' t' ∧
      r' * 2 ^ (t' + 1074).toNat = r * 2 ^ (t + 1074).toNat := by
  rw [shiftToTargetExponent_exact, mantissa_shiftRight]
  refine ⟨_, _, rfl, rfl, ?_⟩
  rcases Nat.lt_or_ge r (2 ^ 53) with hlt | hge
  · have hlog : r.log2 < 53 := (Nat.log2_lt hpos.ne').2 hlt
    have hzero : (Format.binary64.targetExponent (totalExponent r t) - t).toNat = 0 := by
      rw [targetExponent_eq, totalExponent]
      omega
    rw [hzero, pow_zero, Nat.div_one, Nat.cast_zero, add_zero]
    exact ⟨hpos, ⟨hlt, ht, hfull⟩, rfl⟩
  · have h53 : r = 2 ^ 53 := le_antisymm hr hge
    have hone : (Format.binary64.targetExponent (totalExponent r t) - t).toNat = 1 := by
      rw [h53, totalExponent, Nat.log2_two_pow, targetExponent_eq]
      omega
    rw [hone, h53, Nat.cast_one, show (t + 1 + 1074).toNat = (t + 1074).toNat + 1 by omega]
    refine ⟨by norm_num, ⟨by norm_num, by omega, .inl (by norm_num)⟩, ?_⟩
    rw [pow_succ 2 (t + 1074).toNat]
    ring

/-- Rounding a mantissa, with the two shifts that it consists of left as they are. -/
theorem roundWithAccuracy_eq {s : Sign} {m r r' : ℕ} {e t t' : ℤ} {a : Accuracy}
    (h₁ : (shiftToTargetExponent Format.binary64 m e a).1.roundedMantissa = r)
    (h₂ : (shiftToTargetExponent Format.binary64 m e a).2 = t)
    (h₃ : (shiftToTargetExponent Format.binary64 r t .exact).1.mantissa = r')
    (h₄ : (shiftToTargetExponent Format.binary64 r t .exact).2 = t') (hpos : 0 < r') :
    roundWithAccuracy Format.binary64 s m e a = .finite s r' t' hpos := by
  subst h₁ h₂ h₃ h₄
  exact dif_neg hpos.ne'

/-- The bits that are left after shifting to the exponent aimed at are at most 53, and fewer only
at the least exponent. -/
theorem quotient_bounds {m n : ℕ} {e t : ℤ} (hm : 0 < m)
    (ht : max ((m.log2 : ℤ) + 1 + e - 53) (-1074) = t) (hte : t = e + n) :
    m / 2 ^ n < 2 ^ 53 ∧ (2 ^ 52 ≤ m / 2 ^ n ∨ t = -1074) := by
  have hlow := Nat.log2_self_le hm.ne'
  have hhigh := @Nat.lt_log2_self m
  constructor
  · rw [Nat.div_lt_iff_lt_mul (by positivity), ← pow_add]
    exact hhigh.trans_le (Nat.pow_le_pow_right (by norm_num) (by omega))
  · by_cases h : t = -1074
    · exact .inr h
    · left
      rw [Nat.le_div_iff_mul_le (by positivity), ← pow_add]
      exact (Nat.pow_le_pow_right (by norm_num) (by omega)).trans hlow

/-- With an exponent that is not above the one aimed at, rounding steps over no short number. -/
theorem near_roundWithAccuracy (s : Sign) {m : ℕ} {e : ℤ} (hm : 0 < m) (he : -1074 ≤ e)
    (hle : e ≤ Format.binary64.targetExponent (totalExponent m e)) :
    ∃ r t hr, roundWithAccuracy Format.binary64 s m e .exact = .finite s r t hr ∧ Rounded r t ∧
      Near (m * 2 ^ (e + 1074).toNat) (r * 2 ^ (t + 1074).toNat) := by
  have hfirst := shiftToTargetExponent_exact m e
  rw [targetExponent_eq, totalExponent] at hle hfirst
  generalize ht : max ((m.log2 : ℤ) + 1 + e - 53) (-1074) = t at hle hfirst
  generalize hn : (t - e).toNat = n at hfirst
  have hte : t = e + n := by omega
  obtain ⟨hb₁, hb₂⟩ := roundedMantissa_bounds ((⟨m, false, false⟩ : ExtendedMantissa) >>> n)
  have hexact : 2 ^ n ∣ m →
      ((⟨m, false, false⟩ : ExtendedMantissa) >>> n).roundedMantissa = m / 2 ^ n := by
    intro hd
    rw [shiftRight_of_dvd hd]
    rfl
  rw [mantissa_shiftRight] at hb₁ hb₂
  change m / 2 ^ n ≤ _ at hb₁
  change _ ≤ m / 2 ^ n + 1 at hb₂
  generalize hr : ((⟨m, false, false⟩ : ExtendedMantissa) >>> n).roundedMantissa = r
    at hb₁ hb₂ hexact
  obtain ⟨hq₁, hq₂⟩ := quotient_bounds hm ht hte
  have hpos : 0 < r := by
    rcases hq₂ with h | h
    · omega
    · rw [show n = 0 by omega, pow_zero, Nat.div_one] at hb₁
      omega
  -- rounding may have filled the mantissa up; then the second shift halves it
  obtain ⟨r', t', h₃, h₄, hpos', hrounded, hval⟩ := shiftToTargetExponent_rounded hpos
    (by omega) (show -1074 ≤ t by omega) (hq₂.imp_left fun h => h.trans hb₁)
  refine ⟨r', t', hpos', ?_, hrounded, ?_⟩
  · refine roundWithAccuracy_eq ?_ ?_ h₃ h₄ hpos'
    · rw [hfirst]
      exact hr
    · rw [hfirst, hte]
  · rw [hval, show (t + 1074).toNat = (e + 1074).toNat + n by omega]
    refine near_of_quotient hb₁ hb₂ hexact ?_
    rcases hq₂ with h | h
    · exact .inr h
    · exact .inl (by omega)

/-- Rounding first puts zeros behind a mantissa that has too few bits. -/
theorem round_eq (s : Sign) {m : ℕ} {e t : ℤ} (hm : 0 < m)
    (ht : max ((m.log2 : ℤ) + 1 + e - 53) (-1074) = t) :
    Float.Model.UnpackedFloat.round Format.binary64 s m e =
        roundWithAccuracy Format.binary64 s (m * 2 ^ (e - t).toNat) (e - (e - t).toNat) .exact ∧
      max (((m * 2 ^ (e - t).toNat).log2 : ℤ) + 1 + (e - (e - t).toNat) - 53) (-1074) = t := by
  constructor
  · rw [← Nat.shiftLeft_eq, ← ht]
    rfl
  · rw [log2_mul_two_pow hm.ne', ← ht]
    congr 1
    push_cast
    omega

/-- The zeros do not change the count of ticks. -/
theorem ticks_shifted (m : ℕ) {e t : ℤ} (he : -1074 ≤ e) (ht : -1074 ≤ t) :
    m * 2 ^ (e - t).toNat * 2 ^ (e - (e - t).toNat + 1074).toNat = m * 2 ^ (e + 1074).toNat := by
  rw [mul_assoc, ← pow_add]
  congr 2
  omega

/-- **Rounding a mantissa and an exponent** gives a rounded number, and steps over no short one. -/
theorem near_round (s : Sign) {m : ℕ} {e : ℤ} (hm : 0 < m) (he : -1074 ≤ e) :
    ∃ r t hr, Float.Model.UnpackedFloat.round Format.binary64 s m e = .finite s r t hr ∧
      Rounded r t ∧ Near (m * 2 ^ (e + 1074).toNat) (r * 2 ^ (t + 1074).toNat) := by
  obtain ⟨hround, htarget⟩ := round_eq s (e := e) hm rfl
  generalize max ((m.log2 : ℤ) + 1 + e - 53) (-1074) = t at hround htarget
  rw [hround, ← ticks_shifted (t := t) m he (by omega)]
  refine near_roundWithAccuracy s (by positivity) (by omega) ?_
  rw [targetExponent_eq, totalExponent, htarget]
  omega

end Vantage.Binary64
