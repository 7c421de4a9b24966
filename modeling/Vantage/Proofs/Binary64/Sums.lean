/-
**Sums and differences of binary64 numbers.**

The exact value of a binary64 number is an extended real.  A sum or difference that is a number is
the exact one rounded, and rounding is monotone and keeps every number that the format has: so a
number of the format compares with the rounded result at least as weakly as with the exact one.

Main definitions:

* `Vantage.Binary64.valueOf`, `Vantage.Binary64.value` — the exact value of a number.

Main results:

* `Vantage.Binary64.le_iff_value`, `Vantage.Binary64.lt_iff_value`,
  `Vantage.Binary64.beq_iff_value` — comparing numbers is comparing their values;
* `Vantage.Binary64.le_add`, `Vantage.Binary64.sub_le` — **a bound on the exact sum or difference
  is a bound on the rounded one**;
* `Vantage.Binary64.value_add_of_value` — a sum that the format has is exact;
* `Vantage.Binary64.sub_lt` — a strict bound that rounding does not close.
-/

import Vantage.Proofs.Binary64.Ticks

set_option relaxedAutoImplicit false
set_option autoImplicit false

namespace Vantage.Binary64

open Float.Model (UnpackedFloat Format)
open Float.Model.UnpackedFloat

/-! ### Exact values -/

/-- The exact value of a number taken apart; `0` stands for what is not a number. -/
noncomputable def valueOf : UnpackedFloat → EReal
  | .infinity .positive => ⊤
  | .infinity .negative => ⊥
  | .notANumber => 0
  | .zero _ => 0
  | .finite s m e _ => (((s.apply m : ℤ) : ℝ) * (2 : ℝ) ^ e : ℝ)

/-- **The exact value of a number**; `0` stands for what is not a number. -/
noncomputable def value (x : Float) : EReal := valueOf (parts x)

@[simp] theorem valueOf_infinity_positive : valueOf (.infinity .positive) = ⊤ := rfl

@[simp] theorem valueOf_infinity_negative : valueOf (.infinity .negative) = ⊥ := rfl

@[simp] theorem valueOf_zero (s : Sign) : valueOf (.zero s) = 0 := rfl

/-- One tick. -/
noncomputable def tick : ℝ := (2 : ℝ) ^ (-1074 : ℤ)

theorem tick_pos : 0 < tick := by
  rw [tick]
  positivity

/-- A number as it comes out of unpacking. -/
structure Packed (u : UnpackedFloat) : Prop where
  rounded : RoundedParts u
  fits : Fits u

theorem packed_parts (x : Float) : Packed (parts x) := ⟨rounded_parts x, fits_parts x⟩

theorem packed_settled (u : UnpackedFloat) : Packed (settled u) := by
  obtain ⟨h₁, h₂⟩ := roundedParts_unpack (UnpackedFloat.pack Format.binary64 u)
  exact ⟨h₁, h₂⟩

theorem settled_eq_self {u : UnpackedFloat} (h : Packed u) : settled u = u :=
  unpack_pack_of_fits h.rounded h.fits

/-- The value of a finite number is its ticks. -/
theorem valueOf_finite {u : UnpackedFloat} (hu : Packed u) (h : u.isFinite = true) :
    valueOf u = ((ticksOf u : ℝ) * tick : ℝ) ∧ (ticksOf u).natAbs < limit ∧
      Short (ticksOf u).natAbs := by
  cases u with
  | infinity s => cases h
  | notANumber => cases h
  | zero s =>
      refine ⟨?_, limit_pos, short_zero⟩
      rw [valueOf, ticksOf, Int.cast_zero, zero_mul, EReal.coe_zero]
  | finite s m e hm =>
      have hlim := ticks_lt_limit hu.rounded hu.fits
      obtain ⟨hm53, he, -⟩ := hu.rounded
      have habs : (ticksOf (.finite s m e hm)).natAbs = m * 2 ^ (e + 1074).toNat := by
        cases s <;> simp only [ticksOf, Sign.apply, Int.natAbs_neg, Int.natAbs_natCast]
      refine ⟨?_, habs ▸ hlim, ⟨m, _, hm53, habs⟩⟩
      have hpow : (2 : ℝ) ^ e = (2 : ℝ) ^ (e + 1074).toNat * tick := by
        rw [tick, ← zpow_natCast, ← zpow_add₀ (by norm_num : (2 : ℝ) ≠ 0)]
        congr 1
        omega
      have happly : ((s.apply (m * 2 ^ (e + 1074).toNat : ℕ) : ℤ) : ℝ) =
          ((s.apply m : ℤ) : ℝ) * (2 : ℝ) ^ (e + 1074).toNat := by
        cases s <;> simp [Sign.apply]
      rw [valueOf, ticksOf, happly, hpow, mul_assoc]

/-- A number is infinite or finite. -/
theorem value_cases {u : UnpackedFloat} (h : u.isNaN = false) :
    u = .infinity .positive ∨ u = .infinity .negative ∨ u.isFinite = true := by
  cases u with
  | infinity s => cases s <;> simp
  | notANumber => cases h
  | zero s => exact .inr (.inr rfl)
  | finite s m e hm => exact .inr (.inr rfl)

theorem ticksOf_le_limit {u : UnpackedFloat} (hu : Packed u) : (ticksOf u).natAbs ≤ limit := by
  cases u with
  | infinity s => cases s <;> simp [ticksOf, Sign.apply]
  | notANumber => exact Nat.zero_le _
  | zero s => exact Nat.zero_le _
  | finite s m e hm => exact (valueOf_finite hu rfl).2.1.le

theorem coe_le_coe_iff_ticks (a b : ℤ) :
    (((a : ℝ) * tick : ℝ) : EReal) ≤ ((b : ℝ) * tick : ℝ) ↔ a ≤ b := by
  rw [EReal.coe_le_coe_iff, mul_le_mul_iff_left₀ tick_pos, Int.cast_le]

/-- Comparing values is comparing ticks. -/
theorem valueOf_le_iff {u v : UnpackedFloat} (hu : Packed u) (hv : Packed v)
    (nu : u.isNaN = false) (nv : v.isNaN = false) :
    valueOf u ≤ valueOf v ↔ ticksOf u ≤ ticksOf v := by
  have hlim := limit_pos
  rcases value_cases nu with rfl | rfl | fu
  · rw [valueOf_infinity_positive, top_le_iff, ticksOf_infinity_positive]
    rcases value_cases nv with rfl | rfl | fv
    · exact iff_of_true rfl le_rfl
    · rw [valueOf_infinity_negative, ticksOf_infinity_negative]
      exact iff_of_false bot_ne_top (by omega)
    · obtain ⟨hval, hbound, -⟩ := valueOf_finite hv fv
      rw [hval]
      exact iff_of_false (EReal.coe_ne_top _) (by omega)
  · rw [valueOf_infinity_negative, ticksOf_infinity_negative]
    refine iff_of_true bot_le ?_
    rcases value_cases nv with rfl | rfl | fv
    · rw [ticksOf_infinity_positive]
      omega
    · rw [ticksOf_infinity_negative]
    · obtain ⟨-, hbound, -⟩ := valueOf_finite hv fv
      omega
  · obtain ⟨hval, hbound, -⟩ := valueOf_finite hu fu
    rw [hval]
    rcases value_cases nv with rfl | rfl | fv
    · rw [valueOf_infinity_positive, ticksOf_infinity_positive]
      exact iff_of_true le_top (by omega)
    · rw [valueOf_infinity_negative, ticksOf_infinity_negative, le_bot_iff]
      exact iff_of_false (EReal.coe_ne_bot _) (by omega)
    · obtain ⟨hval', -, -⟩ := valueOf_finite hv fv
      rw [hval', coe_le_coe_iff_ticks]

section

variable {x y : Float}

/-- A number is an infinity or has as many ticks as its value says. -/
theorem number_cases (hx : x.isNaN = false) :
    (parts x = .infinity .positive ∧ value x = ⊤) ∨
    (parts x = .infinity .negative ∧ value x = ⊥) ∨
    ((parts x).isFinite = true ∧ value x = ((ticks x : ℝ) * tick : ℝ)) := by
  rcases value_cases hx with h | h | h
  · exact .inl ⟨h, congrArg valueOf h⟩
  · exact .inr (.inl ⟨h, congrArg valueOf h⟩)
  · exact .inr (.inr ⟨h, (valueOf_finite (packed_parts x) h).1⟩)

/-- A finite number is a number. -/
theorem isNaN_of_isFinite (fx : (parts x).isFinite = true) : x.isNaN = false := by
  rw [isNaN_eq]
  cases h : parts x with
  | notANumber =>
      rw [h] at fx
      cases fx
  | _ => rfl

/-- A number between two values that are not infinite is finite. -/
theorem isFinite_of_value (hx : x.isNaN = false) (h₁ : value x ≠ ⊤) (h₂ : value x ≠ ⊥) :
    (parts x).isFinite = true := by
  rcases number_cases hx with ⟨-, h⟩ | ⟨-, h⟩ | ⟨h, -⟩
  · exact absurd h h₁
  · exact absurd h h₂
  · exact h

theorem ticks_nonneg (hx : x.isNaN = false) (h : 0 ≤ value x) : 0 ≤ ticks x :=
  (valueOf_le_iff (u := .zero .positive) ⟨trivial, trivial⟩ (packed_parts x) rfl hx).1 h

/-- **Comparing numbers is comparing their values.** -/
theorem le_iff_value (hx : x.isNaN = false) (hy : y.isNaN = false) :
    x ≤ y ↔ value x ≤ value y := by
  rw [le_iff_ticks hx hy]
  exact (valueOf_le_iff (packed_parts x) (packed_parts y) hx hy).symm

theorem lt_iff_value (hx : x.isNaN = false) (hy : y.isNaN = false) :
    x < y ↔ value x < value y := by
  rw [lt_iff_ticks hx hy, ← not_le, ← not_le, ← le_iff_ticks hy hx, le_iff_value hy hx]

theorem beq_iff_value (hx : x.isNaN = false) (hy : y.isNaN = false) :
    x == y ↔ value x = value y := by
  rw [beq_iff_ticks hx hy, le_antisymm_iff, le_antisymm_iff, ← le_iff_ticks hx hy,
    ← le_iff_ticks hy hx, le_iff_value hx hy, le_iff_value hy hx]

end

/-! ### Sums -/

/-- A mantissa that is filled up with zeros keeps its ticks. -/
theorem apply_shiftLeft (s : Sign) (m : ℕ) {e t : ℤ} (hte : t ≤ e) (ht : -1074 ≤ t) :
    s.apply (m <<< (e - t).toNat : ℕ) * 2 ^ (t + 1074).toNat =
      s.apply (m * 2 ^ (e + 1074).toNat : ℕ) := by
  have hpow : m <<< (e - t).toNat * 2 ^ (t + 1074).toNat = m * 2 ^ (e + 1074).toNat := by
    rw [Nat.shiftLeft_eq, mul_assoc, ← pow_add]
    congr 2
    omega
  cases s <;> simp only [Sign.apply, neg_mul, neg_inj] <;> exact_mod_cast hpow

/-- The sum of two finite numbers is one, and steps over no short count of ticks. -/
theorem near_add {u v : UnpackedFloat} (hu : Packed u) (hv : Packed v) (fu : u.isFinite = true)
    (fv : v.isFinite = true) :
    (settled (UnpackedFloat.add Format.binary64 u v)).isNaN = false ∧
      NearInt (ticksOf u + ticksOf v)
        (ticksOf (settled (UnpackedFloat.add Format.binary64 u v))) := by
  cases u with
  | infinity s => cases fu
  | notANumber => cases fu
  | zero s =>
      rw [ticksOf_zero, zero_add]
      cases v with
      | infinity t => cases fv
      | notANumber => cases fv
      | zero t =>
          have hz : ∃ z, UnpackedFloat.add Format.binary64 (.zero s) (.zero t) = .zero z := by
            cases s <;> cases t <;> exact ⟨_, rfl⟩
          obtain ⟨z, hz⟩ := hz
          rw [hz, settled_eq_self (u := .zero z) ⟨trivial, trivial⟩]
          exact ⟨rfl, NearInt.refl 0⟩
      | finite t n f hn =>
          have hz : UnpackedFloat.add Format.binary64 (.zero s) (.finite t n f hn) =
              .finite t n f hn := rfl
          rw [hz, settled_eq_self hv]
          exact ⟨rfl, NearInt.refl _⟩
  | finite s m e hm =>
      cases v with
      | infinity t => cases fv
      | notANumber => cases fv
      | zero t =>
          have hz : UnpackedFloat.add Format.binary64 (.finite s m e hm) (.zero t) =
              .finite s m e hm := rfl
          rw [hz, settled_eq_self hu, ticksOf_zero, add_zero]
          exact ⟨rfl, NearInt.refl _⟩
      | finite t n f hn =>
          -- both mantissas are brought to the smaller exponent, which loses no bits
          obtain ⟨-, he, -⟩ := hu.rounded
          obtain ⟨-, hf, -⟩ := hv.rounded
          have hsum := near_normalize
            (s.apply (m <<< (e - min e f).toNat : ℕ) + t.apply (n <<< (f - min e f).toNat : ℕ))
            (e := min e f) .positive (by omega)
          rw [add_mul, apply_shiftLeft s m (min_le_left e f) (by omega),
            apply_shiftLeft t n (min_le_right e f) (by omega)] at hsum
          exact hsum

theorem packed_infinity (s : Sign) : Packed (.infinity s) := ⟨trivial, trivial⟩

theorem settled_infinity (s : Sign) : settled (.infinity s) = .infinity s :=
  settled_eq_self (packed_infinity s)

theorem settled_notANumber : settled .notANumber = .notANumber :=
  settled_eq_self (u := .notANumber) ⟨trivial, trivial⟩

/-- Adding an infinity to a finite number, on either side. -/
theorem add_infinity_of_finite {u : UnpackedFloat} (s : Sign) (fu : u.isFinite = true) :
    UnpackedFloat.add Format.binary64 u (.infinity s) = .infinity s ∧
      UnpackedFloat.add Format.binary64 (.infinity s) u = .infinity s := by
  cases u with
  | infinity t => cases fu
  | notANumber => cases fu
  | zero t => exact ⟨rfl, rfl⟩
  | finite t m e hm => exact ⟨rfl, rfl⟩

/-- A sum that is a number is a sum of finite numbers, or an infinity as it is exactly. -/
theorem add_cases {u v : UnpackedFloat} (hu : Packed u) (hv : Packed v) (nu : u.isNaN = false)
    (nv : v.isNaN = false)
    (h : (settled (UnpackedFloat.add Format.binary64 u v)).isNaN = false) :
    (u.isFinite = true ∧ v.isFinite = true) ∨
    (valueOf u + valueOf v = ⊤ ∧
      settled (UnpackedFloat.add Format.binary64 u v) = .infinity .positive) ∨
    (valueOf u + valueOf v = ⊥ ∧
      settled (UnpackedFloat.add Format.binary64 u v) = .infinity .negative) := by
  rcases value_cases nu with rfl | rfl | fu
  · rcases value_cases nv with rfl | rfl | fv
    · exact .inr (.inl ⟨EReal.top_add_top, settled_infinity _⟩)
    · -- opposite infinities have no sum
      change (settled .notANumber).isNaN = false at h
      rw [settled_notANumber] at h
      cases h
    · rw [(add_infinity_of_finite .positive fv).2, (valueOf_finite hv fv).1]
      exact .inr (.inl ⟨EReal.top_add_coe _, settled_infinity _⟩)
  · rcases value_cases nv with rfl | rfl | fv
    · change (settled .notANumber).isNaN = false at h
      rw [settled_notANumber] at h
      cases h
    · exact .inr (.inr ⟨EReal.bot_add _, settled_infinity _⟩)
    · rw [(add_infinity_of_finite .negative fv).2]
      exact .inr (.inr ⟨EReal.bot_add _, settled_infinity _⟩)
  · rcases value_cases nv with rfl | rfl | fv
    · rw [(add_infinity_of_finite .positive fu).1, (valueOf_finite hu fu).1]
      exact .inr (.inl ⟨EReal.coe_add_top _, settled_infinity _⟩)
    · rw [(add_infinity_of_finite .negative fu).1]
      exact .inr (.inr ⟨EReal.add_bot _, settled_infinity _⟩)
    · exact .inl ⟨fu, fv⟩

/-- The exact sum of finite numbers, in ticks. -/
theorem valueOf_add {u v : UnpackedFloat} (hu : Packed u) (hv : Packed v)
    (fu : u.isFinite = true) (fv : v.isFinite = true) :
    valueOf u + valueOf v = (((ticksOf u + ticksOf v : ℤ) : ℝ) * tick : ℝ) := by
  rw [(valueOf_finite hu fu).1, (valueOf_finite hv fv).1, ← EReal.coe_add, Int.cast_add, add_mul]

/-- **A bound on the exact sum is a bound on the rounded one**, from below and from above. -/
theorem bounds_add {u v c : UnpackedFloat} (hu : Packed u) (hv : Packed v) (hc : Packed c)
    (nu : u.isNaN = false) (nv : v.isNaN = false) (nc : c.isNaN = false)
    (h : (settled (UnpackedFloat.add Format.binary64 u v)).isNaN = false) :
    (valueOf c ≤ valueOf u + valueOf v →
      ticksOf c ≤ ticksOf (settled (UnpackedFloat.add Format.binary64 u v))) ∧
    (valueOf u + valueOf v ≤ valueOf c →
      ticksOf (settled (UnpackedFloat.add Format.binary64 u v)) ≤ ticksOf c) := by
  rcases add_cases hu hv nu nv h with ⟨fu, fv⟩ | ⟨hval, hsum⟩ | ⟨hval, hsum⟩
  · obtain ⟨-, hnear⟩ := near_add hu hv fu fv
    rw [valueOf_add hu hv fu fv]
    rcases value_cases nc with rfl | rfl | fc
    · rw [valueOf_infinity_positive, ticksOf_infinity_positive, top_le_iff]
      refine ⟨fun hle => absurd hle (EReal.coe_ne_top _), fun _ => ?_⟩
      have hb := ticksOf_le_limit (packed_settled (UnpackedFloat.add Format.binary64 u v))
      omega
    · rw [valueOf_infinity_negative, ticksOf_infinity_negative, le_bot_iff]
      refine ⟨fun _ => ?_, fun hle => absurd hle (EReal.coe_ne_bot _)⟩
      have hb := ticksOf_le_limit (packed_settled (UnpackedFloat.add Format.binary64 u v))
      omega
    · -- the bound is a short count of ticks, and rounding steps over none
      obtain ⟨hcval, hcbound, hcshort⟩ := valueOf_finite hc fc
      rw [hcval, coe_le_coe_iff_ticks, coe_le_coe_iff_ticks]
      exact hnear (ticksOf c) hcshort hcbound.le
  · rw [hsum, hval, ← valueOf_infinity_positive,
      valueOf_le_iff hc (packed_infinity _) nc rfl, valueOf_le_iff (packed_infinity _) hc rfl nc]
    exact ⟨id, id⟩
  · rw [hsum, hval, ← valueOf_infinity_negative,
      valueOf_le_iff hc (packed_infinity _) nc rfl, valueOf_le_iff (packed_infinity _) hc rfl nc]
    exact ⟨id, id⟩

/-- A sum is a number unless opposite infinities meet. -/
theorem isNaN_settled_add {u v : UnpackedFloat} (hu : Packed u) (hv : Packed v)
    (nu : u.isNaN = false) (nv : v.isNaN = false)
    (h : ¬ ∃ s, u = .infinity s ∧ v = .infinity (-s)) :
    (settled (UnpackedFloat.add Format.binary64 u v)).isNaN = false := by
  rcases value_cases nu with rfl | rfl | fu
  · rcases value_cases nv with rfl | rfl | fv
    · exact congrArg UnpackedFloat.isNaN (settled_infinity .positive)
    · exact absurd ⟨.positive, rfl, rfl⟩ h
    · rw [(add_infinity_of_finite .positive fv).2, settled_infinity]
      rfl
  · rcases value_cases nv with rfl | rfl | fv
    · exact absurd ⟨.negative, rfl, rfl⟩ h
    · exact congrArg UnpackedFloat.isNaN (settled_infinity .negative)
    · rw [(add_infinity_of_finite .negative fv).2, settled_infinity]
      rfl
  · rcases value_cases nv with rfl | rfl | fv
    · rw [(add_infinity_of_finite .positive fu).1, settled_infinity]
      rfl
    · rw [(add_infinity_of_finite .negative fu).1, settled_infinity]
      rfl
    · exact (near_add hu hv fu fv).1

/-! ### Differences -/

theorem packed_neg {u : UnpackedFloat} (hu : Packed u) : Packed u.neg := by
  cases u with
  | finite s m e hm => exact ⟨hu.rounded, hu.fits⟩
  | _ => exact ⟨trivial, trivial⟩

theorem isNaN_neg (u : UnpackedFloat) : u.neg.isNaN = u.isNaN := by cases u <;> rfl

theorem isFinite_neg (u : UnpackedFloat) : u.neg.isFinite = u.isFinite := by cases u <;> rfl

theorem valueOf_neg (u : UnpackedFloat) : valueOf u.neg = -valueOf u := by
  cases u with
  | infinity s =>
      cases s with
      | negative => exact EReal.neg_bot.symm
      | positive => exact EReal.neg_top.symm
  | notANumber => exact neg_zero.symm
  | zero s => exact neg_zero.symm
  | finite s m e hm =>
      rw [UnpackedFloat.neg, valueOf, valueOf, apply_neg, Int.cast_neg, neg_mul, EReal.coe_neg]

theorem ticksOf_neg (u : UnpackedFloat) : ticksOf u.neg = -ticksOf u := by
  cases u with
  | infinity s => exact apply_neg s _
  | finite s m e hm => exact apply_neg s _
  | _ => exact neg_zero.symm

/-- A difference is the sum with the opposite number. -/
theorem sub_eq_add_opposite (u v : UnpackedFloat) :
    UnpackedFloat.sub Format.binary64 u v = UnpackedFloat.add Format.binary64 u v.neg := by
  cases u with
  | finite s m e hm =>
      cases v with
      | finite t n f hn =>
          simp only [UnpackedFloat.sub, UnpackedFloat.add, UnpackedFloat.neg, apply_neg]
          rfl
      | _ => rfl
  | zero s => cases v <;> rfl
  | infinity s => cases v <;> rfl
  | notANumber => cases v <;> rfl

/-! ### Bounds on sums and differences of numbers -/

section

variable {x y c : Float}

theorem parts_sub (x y : Float) :
    parts (x - y) = settled (UnpackedFloat.add Format.binary64 (parts x) (parts y).neg) := by
  rw [← sub_eq_add_opposite]
  rfl

/-- A number that is at most the exact sum is at most the rounded one. -/
theorem le_add (hx : x.isNaN = false) (hy : y.isNaN = false) (hc : c.isNaN = false)
    (h : (x + y).isNaN = false) (hle : value c ≤ value x + value y) : c ≤ x + y := by
  rw [le_iff_ticks hc h]
  exact (bounds_add (packed_parts x) (packed_parts y) (packed_parts c) hx hy hc h).1 hle

/-- A number that is at least the exact difference is at least the rounded one. -/
theorem sub_le (hx : x.isNaN = false) (hy : y.isNaN = false) (hc : c.isNaN = false)
    (h : (x - y).isNaN = false) (hle : value x - value y ≤ value c) : x - y ≤ c := by
  rw [le_iff_ticks h hc]
  rw [isNaN_eq, parts_sub] at h
  have hneg : (parts y).neg.isNaN = false := (isNaN_neg _).trans hy
  refine (parts_sub x y ▸ (bounds_add (packed_parts x) (packed_neg (packed_parts y))
    (packed_parts c) hx hneg hc h).2) ?_
  rwa [valueOf_neg]

/-- **A sum that the format has is exact.** -/
theorem value_add_of_value (hx : x.isNaN = false) (hy : y.isNaN = false) (hc : c.isNaN = false)
    (h : (x + y).isNaN = false) (heq : value c = value x + value y) :
    value (x + y) = value x + value y := by
  obtain ⟨hlow, hhigh⟩ :=
    bounds_add (packed_parts x) (packed_parts y) (packed_parts c) hx hy hc h
  have hticks : ticks (x + y) = ticks c := le_antisymm (hhigh heq.ge) (hlow heq.le)
  rw [← heq, ← beq_iff_value h hc, beq_iff_ticks h hc, hticks]

/-- The difference of a number that is not positive infinity and one that is not negative. -/
theorem isNaN_sub (hx : x.isNaN = false) (hy : y.isNaN = false) (hx₀ : value x ≠ ⊤)
    (hy₀ : 0 ≤ value y) : (x - y).isNaN = false := by
  rw [isNaN_eq, parts_sub]
  refine isNaN_settled_add (packed_parts x) (packed_neg (packed_parts y)) hx
    ((isNaN_neg _).trans hy) ?_
  rintro ⟨s, (hs : parts x = _), (ht : (parts y).neg = _)⟩
  have hys : value y = -valueOf (.infinity (-s)) := by
    rw [← ht, valueOf_neg, neg_neg]
    rfl
  cases s with
  | negative => exact absurd (hys ▸ hy₀) (by simp [show -Sign.negative = Sign.positive from rfl])
  | positive =>
      rw [value, hs] at hx₀
      exact hx₀ rfl

/-- Two numbers have a sum if neither is negative infinity, or neither is positive infinity. -/
theorem isNaN_add_of_ne (hx : x.isNaN = false) (hy : y.isNaN = false)
    (h : (value x ≠ ⊥ ∧ value y ≠ ⊥) ∨ (value x ≠ ⊤ ∧ value y ≠ ⊤)) : (x + y).isNaN = false := by
  refine isNaN_settled_add (packed_parts x) (packed_parts y) hx hy ?_
  rintro ⟨s, (hs : parts x = _), (ht : parts y = _)⟩
  rw [value, value, hs, ht] at h
  cases s with
  | negative =>
      rcases h with ⟨hx₀, -⟩ | ⟨-, hy₀⟩
      · exact hx₀ rfl
      · exact hy₀ rfl
  | positive =>
      rcases h with ⟨-, hy₀⟩ | ⟨hx₀, -⟩
      · exact hy₀ rfl
      · exact hx₀ rfl

/-- Two numbers that are not negative have a sum. -/
theorem isNaN_add (hx : x.isNaN = false) (hy : y.isNaN = false) (hx₀ : 0 ≤ value x)
    (hy₀ : 0 ≤ value y) : (x + y).isNaN = false :=
  isNaN_add_of_ne hx hy
    (.inl ⟨(EReal.bot_lt_zero.trans_le hx₀).ne', (EReal.bot_lt_zero.trans_le hy₀).ne'⟩)

end

/-! ### A strict bound that rounding keeps strict -/

/-- What has no more ticks than another number is a multiple of no higher power of two. -/
theorem two_pow_dvd_of_le {m n : ℕ} {e f : ℤ} (hm : Rounded m e) (hn : Rounded n f)
    (h : m * 2 ^ (e + 1074).toNat ≤ n * 2 ^ (f + 1074).toNat) :
    2 ^ (e + 1074).toNat ∣ n * 2 ^ (f + 1074).toNat := by
  have hef : e ≤ f := by
    by_contra hlt
    have := ticks_lt_of_exponent_lt hn hm (not_le.1 hlt)
    omega
  exact (pow_dvd_pow 2 (by omega)).mul_left n

/-- A finite number with ticks is a positive one. -/
theorem eq_finite_of_ticksOf_pos {u : UnpackedFloat} (fu : u.isFinite = true)
    (hpos : 0 < ticksOf u) : ∃ m e hm, u = .finite .positive m e hm := by
  cases u with
  | infinity s => cases fu
  | notANumber => cases fu
  | zero s => exact absurd hpos (lt_irrefl 0)
  | finite s m e hm =>
      cases s with
      | negative =>
          simp only [ticksOf, Sign.apply] at hpos
          omega
      | positive => exact ⟨m, e, hm, rfl⟩

/-- Below a finite number that is not negative there is a short one, at a distance no larger than
the distance of any two finite numbers that are not smaller. -/
theorem exists_short_below {u v w : UnpackedFloat} (hu : Packed u) (hv : Packed v) (hw : Packed w)
    (fu : u.isFinite = true) (fv : v.isFinite = true) (fw : w.isFinite = true)
    (h₀ : 0 ≤ ticksOf u) (huv : ticksOf u ≤ ticksOf v) (hvw : ticksOf v < ticksOf w) :
    ∃ c : ℤ, Short c.natAbs ∧ c.natAbs ≤ limit ∧ c < ticksOf u ∧
      ticksOf v - ticksOf w ≤ c - ticksOf u := by
  rcases h₀.eq_or_lt with h | hpos
  · -- below zero lies one tick of the other sign
    refine ⟨-1, ⟨1, 0, by norm_num, rfl⟩, ?_, by omega, by omega⟩
    have := limit_pos
    omega
  · obtain ⟨m, e, hm, rfl⟩ := eq_finite_of_ticksOf_pos fu hpos
    obtain ⟨n, f, hn, rfl⟩ := eq_finite_of_ticksOf_pos fv (by omega)
    obtain ⟨o, g, ho, rfl⟩ := eq_finite_of_ticksOf_pos fw (by omega)
    simp only [ticksOf, Sign.apply, Nat.cast_le, Nat.cast_lt] at huv hvw ⊢
    have hlim := ticks_lt_limit hu.rounded hu.fits
    obtain ⟨hm53, -, -⟩ := hu.rounded
    -- all three are multiples of the last place of the smallest, so `v` and `w` are as far apart
    obtain ⟨b, hb⟩ := two_pow_dvd_of_le hu.rounded hv.rounded huv
    obtain ⟨d, hd⟩ := two_pow_dvd_of_le hu.rounded hw.rounded (huv.trans hvw.le)
    generalize hk : 2 ^ (e + 1074).toNat = k at *
    have hkpos : 0 < k := hk ▸ by positivity
    have hbd : b + 1 ≤ d := by
      rw [hb, hd] at hvw
      exact Nat.lt_of_mul_lt_mul_left hvw
    have hgap : n * 2 ^ (f + 1074).toNat + k ≤ o * 2 ^ (g + 1074).toNat := by
      rw [hb, hd]
      calc k * b + k = k * (b + 1) := by ring
        _ ≤ k * d := Nat.mul_le_mul_left k hbd
    -- and one such place below the smallest there is a short number
    have hpred : (m - 1) * k + k = m * k := by
      rw [← Nat.succ_mul, Nat.succ_eq_add_one, Nat.sub_add_cancel hm]
    refine ⟨((m - 1) * k : ℕ), ?_, ?_, by omega, by omega⟩
    · rw [Int.natAbs_natCast]
      exact ⟨m - 1, (e + 1074).toNat, by omega, by rw [hk]⟩
    · rw [Int.natAbs_natCast]
      omega

section

variable {m D d r : Float}

/-- The strict bound between finite numbers: rounding cannot step over the short number below
`d`. -/
theorem ticks_sub_lt (fm : (parts m).isFinite = true) (fD : (parts D).isFinite = true)
    (fd : (parts d).isFinite = true) (fr : (parts r).isFinite = true) (hd₀ : 0 ≤ ticks d)
    (hdm : ticks d ≤ ticks m) (hlt : ticks m < ticks D) (htri : ticks D ≤ ticks d + ticks r) :
    ticks (m - r) < ticks d := by
  obtain ⟨c, hshort, hlim, hcd, hgap⟩ := exists_short_below (packed_parts d) (packed_parts m)
    (packed_parts D) fd fm fD hd₀ hdm hlt
  have hnear := (near_add (packed_parts m) (packed_neg (packed_parts r)) fm
    ((isFinite_neg _).trans fr)).2 c hshort hlim
  rw [← parts_sub, ticksOf_neg] at hnear
  have hmr : ticks m + -ticks r ≤ c := by
    change ticks m - ticks D ≤ c - ticks d at hgap
    omega
  exact (hnear.2 hmr).trans_lt hcd

/-- **A strict bound that rounding keeps strict.**  If a number `D` above `m` lies within `r` of
`d`, then `d` lies above `m - r`, not only exactly but also after rounding: between `m` and the
next number there is at least as much room as between `d` and the one before it. -/
theorem sub_lt (hd : d.isNaN = false) (hr : r.isNaN = false) (hd₀ : 0 ≤ value d)
    (hr₀ : 0 ≤ value r) (hlt : m < D) (htri : value D ≤ value d + value r) : m - r < d := by
  obtain ⟨hm, hD⟩ := isNaN_of_lt hlt
  have hvlt : value m < value D := (lt_iff_value hm hD).1 hlt
  have hnum := isNaN_sub hm hr hvlt.ne_top hr₀
  rcases le_or_lt_of_isNaN hd hm with hdm | hmd
  · -- `0 ≤ d ≤ m < D`, so `m` and `d` are finite
    rw [le_iff_value hd hm] at hdm
    have hbot : ⊥ < value d := EReal.bot_lt_zero.trans_le hd₀
    have fm := isFinite_of_value hm hvlt.ne_top (hbot.trans_le hdm).ne'
    have fd := isFinite_of_value hd (hdm.trans_lt hvlt).ne_top hbot.ne'
    have hticks := ticks_nonneg hd hd₀
    rw [lt_iff_ticks hnum hd]
    rcases number_cases hr with ⟨h, -⟩ | ⟨-, h⟩ | ⟨fr, -⟩
    · -- all of the room is subtracted
      have hsub : parts (m - r) = .infinity .negative := by
        rw [parts_sub, show (parts r).neg = .infinity .negative by rw [h]; rfl,
          (add_infinity_of_finite .negative fm).1, settled_infinity]
      rw [ticks, hsub, ticksOf_infinity_negative]
      have := limit_pos
      omega
    · rw [h] at hr₀
      exact absurd hr₀ (not_le.2 EReal.bot_lt_zero)
    · have hsum := valueOf_add (packed_parts d) (packed_parts r) fd fr
      change value d + value r = _ at hsum
      rw [hsum] at htri
      have fD := isFinite_of_value hD (htri.trans_lt (EReal.coe_lt_top _)).ne
        (hvlt.trans_le' bot_le).ne'
      rw [value, (valueOf_finite (packed_parts D) fD).1, coe_le_coe_iff_ticks] at htri
      exact ticks_sub_lt fm fD fd fr hticks
        ((valueOf_le_iff (packed_parts d) (packed_parts m) hd hm).1 hdm)
        ((lt_iff_ticks hm hD).1 hlt) htri
  · -- `m < d`, and the difference is at most `m`
    have hle : m - r ≤ m := by
      refine sub_le hm hr hm hnum ?_
      rw [sub_eq_add_neg]
      exact (add_le_add_right (EReal.neg_le_zero.2 hr₀) (value m)).trans (add_zero _).le
    rw [lt_iff_ticks hm hd] at hmd
    rw [le_iff_ticks hnum hm] at hle
    rw [lt_iff_ticks hnum hd]
    omega

end

end Vantage.Binary64
