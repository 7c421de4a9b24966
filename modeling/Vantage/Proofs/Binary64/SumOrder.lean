/-
**Sums of binary64 numbers keep the order of the exact sums.**

The sum of two finite numbers is the exact sum rounded, unless one of them is zero, and then it is
the other one.  Rounding depends on the exact number alone and keeps the order, for either sign; so
sums are in order whenever the exact ones are.  An infinity remains in a sum, and opposite ones have
none.  So a bound on a sum, or on a difference, outlives a change of one of its numbers to the
looser side.

Main results:

* `Vantage.Binary64.normalize_le_normalize` — **rounding signed mantissas keeps the order**;
* `Vantage.Binary64.add_le_add_of_value` — **sums are in order when the exact ones are**;
* `Vantage.Binary64.le_add_of_le`, `Vantage.Binary64.add_lt_of_le`, `Vantage.Binary64.lt_sub_of_le`,
  `Vantage.Binary64.sub_lt_of_le` — bounds that outlive a change.
-/

import Vantage.Proofs.Binary64.Nearest

set_option relaxedAutoImplicit false
set_option autoImplicit false

namespace Vantage.Binary64

open Float.Model (UnpackedFloat Format)
open Float.Model.UnpackedFloat

/-! ### Rounding signed mantissas -/

/-- Rounding positive mantissas keeps the order. -/
theorem ticks_round_le_round {m m' : ℕ} {e e' : ℤ} (hm : 0 < m) (hm' : 0 < m') (he : -1074 ≤ e)
    (he' : -1074 ≤ e') (h : m * 2 ^ (e + 1074).toNat ≤ m' * 2 ^ (e' + 1074).toNat) :
    ticksOf (settled (UnpackedFloat.round Format.binary64 .positive m e)) ≤
      ticksOf (settled (UnpackedFloat.round Format.binary64 .positive m' e')) := by
  obtain ⟨hround, htarget⟩ := round_eq .positive (e := e) hm rfl
  obtain ⟨hround', htarget'⟩ := round_eq .positive (e := e') hm' rfl
  generalize max ((m.log2 : ℤ) + 1 + e - 53) (-1074) = t at hround htarget
  generalize max ((m'.log2 : ℤ) + 1 + e' - 53) (-1074) = t' at hround' htarget'
  rw [hround, hround']
  refine round_le_round (l := -1074) (by positivity) (by positivity) (by omega) (by omega)
    (by omega) (by omega) ?_
  simp only [sub_neg_eq_add]
  rwa [ticks_shifted m he (by omega), ticks_shifted m' he' (by omega)]

/-- The sign of a mantissa does not matter for its rounding. -/
theorem ticksOf_round_negative {m : ℕ} {e : ℤ} (hm : 0 < m) :
    ticksOf (settled (UnpackedFloat.round Format.binary64 .negative m e)) =
      -ticksOf (settled (UnpackedFloat.round Format.binary64 .positive m e)) := by
  obtain ⟨hneg, htarget⟩ := round_eq .negative (e := e) hm rfl
  obtain ⟨hpos, -⟩ := round_eq .positive (e := e) hm rfl
  generalize max ((m.log2 : ℤ) + 1 + e - 53) (-1074) = t at hneg hpos htarget
  have hshifted : 0 < m * 2 ^ (e - t).toNat := by positivity
  obtain ⟨r, hr, -, -, hticks⟩ :=
    roundsTo_roundWithAccuracy .negative hshifted htarget (by omega)
  obtain ⟨r', hr', -, -, hticks'⟩ :=
    roundsTo_roundWithAccuracy .positive hshifted htarget (by omega)
  -- both are the whole number nearest to the same fraction
  have heq : (r : ℤ) = r' :=
    le_antisymm (hr.mono (by positivity) hr' le_rfl) (hr'.mono (by positivity) hr le_rfl)
  rw [hneg, hpos, hticks, hticks', Int.ofNat_inj.1 heq]
  rfl

theorem normalize_natCast {m : ℕ} {e : ℤ} (hm : 0 < m) (z : Sign) :
    UnpackedFloat.normalize Format.binary64 m e z =
      UnpackedFloat.round Format.binary64 .positive m e := by
  rw [UnpackedFloat.normalize, compare_gt_iff_gt.2 (show (m : ℤ) > 0 by omega)]
  rfl

theorem ticksOf_normalize_neg {m : ℕ} {e : ℤ} (hm : 0 < m) (z : Sign) :
    ticksOf (settled (UnpackedFloat.normalize Format.binary64 (-m) e z)) =
      -ticksOf (settled (UnpackedFloat.round Format.binary64 .positive m e)) := by
  rw [UnpackedFloat.normalize, compare_lt_iff_lt.2 (show (-m : ℤ) < 0 by omega)]
  simpa using ticksOf_round_negative hm

/-- **Rounding signed mantissas keeps the order.** -/
theorem normalize_le_normalize {m m' e e' : ℤ} (z z' : Sign) (he : -1074 ≤ e) (he' : -1074 ≤ e')
    (h : m * 2 ^ (e + 1074).toNat ≤ m' * 2 ^ (e' + 1074).toNat) :
    ticksOf (settled (UnpackedFloat.normalize Format.binary64 m e z)) ≤
      ticksOf (settled (UnpackedFloat.normalize Format.binary64 m' e' z')) := by
  have hpow : (0 : ℤ) < 2 ^ (e + 1074).toNat := by positivity
  have hpow' : (0 : ℤ) < 2 ^ (e' + 1074).toNat := by positivity
  rcases lt_or_ge 0 m with hm | hm
  · -- both mantissas are positive
    have hm' : 0 < m' := by
      by_contra hm'
      exact absurd (h.trans (mul_nonpos_of_nonpos_of_nonneg (not_lt.1 hm') hpow'.le))
        (not_le.2 (mul_pos hm hpow))
    lift m to ℕ using hm.le
    lift m' to ℕ using hm'.le
    rw [normalize_natCast (by omega), normalize_natCast (by omega)]
    exact ticks_round_le_round (by omega) (by omega) he he' (by exact_mod_cast h)
  · rcases lt_or_ge m' 0 with hm' | hm'
    · -- both are negative
      have hm : m < 0 := by
        by_contra hm
        exact absurd ((mul_nonneg (not_lt.1 hm) hpow.le).trans h)
          (not_le.2 (mul_neg_of_neg_of_pos hm' hpow'))
      obtain ⟨n, rfl⟩ := Int.exists_eq_neg_ofNat hm.le
      obtain ⟨n', rfl⟩ := Int.exists_eq_neg_ofNat hm'.le
      rw [neg_mul, neg_mul, neg_le_neg_iff] at h
      rw [ticksOf_normalize_neg (by omega), ticksOf_normalize_neg (by omega), neg_le_neg_iff]
      exact ticks_round_le_round (by omega) (by omega) he' he (by exact_mod_cast h)
    · -- zero lies between them, and rounding does not step over it
      have hnear := ((near_normalize m z he).2 0 short_zero (Nat.zero_le _)).2
      have hnear' := ((near_normalize m' z' he').2 0 short_zero (Nat.zero_le _)).1
      exact (hnear (mul_nonpos_of_nonpos_of_nonneg hm hpow.le)).trans
        (hnear' (mul_nonneg hm' hpow'.le))

/-! ### Sums of numbers taken apart -/

/-- What is rounded to a short count is that count, so what lies beyond it stays beyond it. -/
theorem NearInt.le_of_short {n m r s : ℤ} (hr : NearInt n r) (hs : NearInt m s)
    (hshort : Short n.natAbs ∧ n.natAbs ≤ limit ∨ Short m.natAbs ∧ m.natAbs ≤ limit) (h : n ≤ m) :
    r ≤ s := by
  rcases hshort with ⟨hshort, hlim⟩ | ⟨hshort, hlim⟩
  · exact ((hr n hshort hlim).2 le_rfl).trans ((hs n hshort hlim).1 h)
  · exact ((hr m hshort hlim).2 h).trans ((hs m hshort hlim).1 le_rfl)

/-- The exact sum of finite numbers is that of a short count, or its ticks are those of a mantissa
with the smaller of the two exponents, which is rounded. -/
theorem add_short_or_normalize {u v : UnpackedFloat} (hu : Packed u) (hv : Packed v)
    (fu : u.isFinite = true) (fv : v.isFinite = true) :
    (Short (ticksOf u + ticksOf v).natAbs ∧ (ticksOf u + ticksOf v).natAbs ≤ limit) ∨
      ∃ m e : ℤ, -1074 ≤ e ∧ m * 2 ^ (e + 1074).toNat = ticksOf u + ticksOf v ∧
        UnpackedFloat.add Format.binary64 u v =
          UnpackedFloat.normalize Format.binary64 m e .positive := by
  cases u with
  | infinity s => cases fu
  | notANumber => cases fu
  | zero s =>
      obtain ⟨-, hlt, hshort⟩ := valueOf_finite hv fv
      rw [ticksOf_zero, zero_add]
      exact .inl ⟨hshort, hlt.le⟩
  | finite s m e hm =>
      cases v with
      | infinity t => cases fv
      | notANumber => cases fv
      | zero t =>
          obtain ⟨-, hlt, hshort⟩ := valueOf_finite hu fu
          rw [ticksOf_zero, add_zero]
          exact .inl ⟨hshort, hlt.le⟩
      | finite t n f hn =>
          -- both mantissas are brought to the smaller exponent, which loses no bits
          obtain ⟨-, he, -⟩ := hu.rounded
          obtain ⟨-, hf, -⟩ := hv.rounded
          refine .inr ⟨_, min e f, by omega, ?_, rfl⟩
          rw [add_mul, apply_shiftLeft s m (min_le_left e f) (by omega),
            apply_shiftLeft t n (min_le_right e f) (by omega)]
          rfl

/-- Sums of finite numbers whose exact sums are in order are in order. -/
theorem ticksOf_add_le {u v u' v' : UnpackedFloat} (hu : Packed u) (hv : Packed v)
    (hu' : Packed u') (hv' : Packed v') (fu : u.isFinite = true) (fv : v.isFinite = true)
    (fu' : u'.isFinite = true) (fv' : v'.isFinite = true)
    (h : ticksOf u + ticksOf v ≤ ticksOf u' + ticksOf v') :
    ticksOf (settled (UnpackedFloat.add Format.binary64 u v)) ≤
      ticksOf (settled (UnpackedFloat.add Format.binary64 u' v')) := by
  have hnear := (near_add hu hv fu fv).2
  have hnear' := (near_add hu' hv' fu' fv').2
  rcases add_short_or_normalize hu hv fu fv with hshort | ⟨m, e, he, hticks, hadd⟩
  · exact hnear.le_of_short hnear' (.inl hshort) h
  · rcases add_short_or_normalize hu' hv' fu' fv' with hshort | ⟨m', e', he', hticks', hadd'⟩
    · exact hnear.le_of_short hnear' (.inr hshort) h
    · rw [hadd, hadd']
      exact normalize_le_normalize _ _ he he' (by rwa [hticks, hticks'])

/-- Sums that are numbers are in order when the exact sums are. -/
theorem ticksOf_add_le_of_value {u v u' v' : UnpackedFloat} (hu : Packed u) (hv : Packed v)
    (hu' : Packed u') (hv' : Packed v') (nu : u.isNaN = false) (nv : v.isNaN = false)
    (nu' : u'.isNaN = false) (nv' : v'.isNaN = false)
    (h₁ : (settled (UnpackedFloat.add Format.binary64 u v)).isNaN = false)
    (h₂ : (settled (UnpackedFloat.add Format.binary64 u' v')).isNaN = false)
    (h : valueOf u + valueOf v ≤ valueOf u' + valueOf v') :
    ticksOf (settled (UnpackedFloat.add Format.binary64 u v)) ≤
      ticksOf (settled (UnpackedFloat.add Format.binary64 u' v')) := by
  have hbound := ticksOf_le_limit (packed_settled (UnpackedFloat.add Format.binary64 u v))
  have hbound' := ticksOf_le_limit (packed_settled (UnpackedFloat.add Format.binary64 u' v'))
  rcases add_cases hu hv nu nv h₁ with ⟨fu, fv⟩ | ⟨hval, hsum⟩ | ⟨-, hsum⟩
  · rw [valueOf_add hu hv fu fv] at h
    rcases add_cases hu' hv' nu' nv' h₂ with ⟨fu', fv'⟩ | ⟨-, hsum'⟩ | ⟨hval', -⟩
    · rw [valueOf_add hu' hv' fu' fv', coe_le_coe_iff_ticks] at h
      exact ticksOf_add_le hu hv hu' hv' fu fv fu' fv' h
    · rw [hsum', ticksOf_infinity_positive]
      omega
    · rw [hval', le_bot_iff] at h
      exact absurd h (EReal.coe_ne_bot _)
  · -- only positive infinity is at least as large
    rw [hval, top_le_iff] at h
    rcases add_cases hu' hv' nu' nv' h₂ with ⟨fu', fv'⟩ | ⟨-, hsum'⟩ | ⟨hval', -⟩
    · rw [valueOf_add hu' hv' fu' fv'] at h
      exact absurd h (EReal.coe_ne_top _)
    · rw [hsum, hsum']
    · exact absurd (hval'.symm.trans h) bot_ne_top
  · rw [hsum, ticksOf_infinity_negative]
    omega

/-! ### Sums and differences of numbers -/

theorem parts_neg (x : Float) : parts (-x) = (parts x).neg :=
  settled_eq_self (packed_neg (packed_parts x))

/-- The difference of numbers is a sum. -/
theorem sub_eq_add (x y : Float) : x - y = x + -y := by
  change (⟨_⟩ : Float) = ⟨.pack (UnpackedFloat.add Format.binary64 (parts x) (parts (-y)))⟩
  rw [parts_neg, ← sub_eq_add_opposite]
  rfl

section

variable {x y z w c : Float}

theorem value_neg (x : Float) : value (-x) = -value x := by
  rw [value, parts_neg, valueOf_neg]
  rfl

theorem neg_isNaN (x : Float) : (-x).isNaN = x.isNaN := by
  rw [isNaN_eq, parts_neg, isNaN_neg]
  rfl

theorem neg_le_neg_of_le (h : x ≤ y) : -y ≤ -x := by
  obtain ⟨hx, hy⟩ := isNaN_of_le h
  rw [le_iff_value ((neg_isNaN y).trans hy) ((neg_isNaN x).trans hx), value_neg, value_neg,
    EReal.neg_le_neg_iff]
  exact (le_iff_value hx hy).1 h

/-- **Sums are in order when the exact sums are.** -/
theorem add_le_add_of_value (hx : x.isNaN = false) (hy : y.isNaN = false) (hz : z.isNaN = false)
    (hw : w.isNaN = false) (h₁ : (x + y).isNaN = false) (h₂ : (z + w).isNaN = false)
    (h : value x + value y ≤ value z + value w) : x + y ≤ z + w := by
  rw [le_iff_ticks h₁ h₂]
  exact ticksOf_add_le_of_value (packed_parts x) (packed_parts y) (packed_parts z)
    (packed_parts w) hx hy hz hw h₁ h₂ h

/-! ### Sums with an infinity -/

theorem isNaN_settled_notANumber : (settled .notANumber).isNaN = true :=
  congrArg UnpackedFloat.isNaN settled_notANumber

/-- What has a sum is a number. -/
theorem isNaN_of_add (h : (x + y).isNaN = false) : x.isNaN = false ∧ y.isNaN = false := by
  change (settled (UnpackedFloat.add Format.binary64 (parts x) (parts y))).isNaN = false at h
  rw [isNaN_eq, isNaN_eq]
  generalize parts x = u at h ⊢
  generalize parts y = v at h ⊢
  constructor
  · cases u with
    | notANumber => exact absurd (isNaN_settled_notANumber.symm.trans h) (by decide)
    | _ => rfl
  · cases v with
    | notANumber =>
        have hadd : UnpackedFloat.add Format.binary64 u .notANumber = .notANumber := by
          cases u <;> rfl
        rw [hadd, isNaN_settled_notANumber] at h
        cases h
    | _ => rfl

/-- Infinities that have a sum are the same. -/
theorem eq_of_add_infinity {s t : Sign}
    (h : (settled (UnpackedFloat.add Format.binary64 (.infinity s) (.infinity t))).isNaN = false) :
    s = t ∧ settled (UnpackedFloat.add Format.binary64 (.infinity s) (.infinity t)) =
      .infinity s := by
  cases s <;> cases t
  case positive.positive => exact ⟨rfl, settled_infinity _⟩
  case negative.negative => exact ⟨rfl, settled_infinity _⟩
  all_goals exact absurd (isNaN_settled_notANumber.symm.trans h) (by decide)

theorem settled_add_infinity {u v : UnpackedFloat} {s : Sign} (nu : u.isNaN = false)
    (nv : v.isNaN = false) (h : (settled (UnpackedFloat.add Format.binary64 u v)).isNaN = false)
    (hs : u = .infinity s ∨ v = .infinity s) :
    settled (UnpackedFloat.add Format.binary64 u v) = .infinity s := by
  rcases hs with rfl | rfl
  · cases v with
    | infinity t => exact (eq_of_add_infinity h).2
    | notANumber => cases nv
    | _ => exact settled_infinity s
  · cases u with
    | infinity t =>
        obtain ⟨rfl, hsum⟩ := eq_of_add_infinity h
        exact hsum
    | notANumber => cases nu
    | _ => exact settled_infinity s

/-- An infinite value is that of the infinity. -/
theorem parts_eq_infinity {s : Sign} (hx : x.isNaN = false)
    (h : value x = valueOf (.infinity s)) : parts x = .infinity s := by
  rcases number_cases hx with ⟨hparts, hval⟩ | ⟨hparts, hval⟩ | ⟨-, hval⟩
  · cases s with
    | positive => exact hparts
    | negative => exact absurd (hval.symm.trans h) top_ne_bot
  · cases s with
    | positive => exact absurd (hval.symm.trans h) bot_ne_top
    | negative => exact hparts
  · cases s with
    | positive => exact absurd (hval.symm.trans h) (EReal.coe_ne_top _)
    | negative => exact absurd (hval.symm.trans h) (EReal.coe_ne_bot _)

/-- An infinity remains in a sum. -/
theorem value_add_infinity {s : Sign} (h : (x + y).isNaN = false)
    (hs : value x = valueOf (.infinity s) ∨ value y = valueOf (.infinity s)) :
    value (x + y) = valueOf (.infinity s) := by
  obtain ⟨hx, hy⟩ := isNaN_of_add h
  exact congrArg valueOf
    (settled_add_infinity hx hy h (hs.imp (parts_eq_infinity hx) (parts_eq_infinity hy)))

/-! ### Sums with a larger number -/

/-- A sum that is not negative infinity does not fall when a number in it rises. -/
theorem add_le_add_of_ne_bot (hyz : y ≤ z) (h : (x + y).isNaN = false)
    (hbot : value (x + y) ≠ ⊥) : x + y ≤ x + z := by
  obtain ⟨hx, hy⟩ := isNaN_of_add h
  obtain ⟨-, hz⟩ := isNaN_of_le hyz
  have hvalue := (le_iff_value hy hz).1 hyz
  have hx₀ : value x ≠ ⊥ := fun hval =>
    hbot (value_add_infinity (s := .negative) h (.inl hval))
  have hy₀ : value y ≠ ⊥ := fun hval =>
    hbot (value_add_infinity (s := .negative) h (.inr hval))
  have hz₀ : value z ≠ ⊥ := (hy₀.bot_lt.trans_le hvalue).ne'
  exact add_le_add_of_value hx hy hx hz h (isNaN_add_of_ne hx hz (.inl ⟨hx₀, hz₀⟩))
    (add_le_add_right hvalue _)

/-- A sum that is not positive infinity does not rise when a number in it falls. -/
theorem add_le_add_of_ne_top (hyz : y ≤ z) (h : (x + z).isNaN = false)
    (htop : value (x + z) ≠ ⊤) : x + y ≤ x + z := by
  obtain ⟨hx, hz⟩ := isNaN_of_add h
  obtain ⟨hy, -⟩ := isNaN_of_le hyz
  have hvalue := (le_iff_value hy hz).1 hyz
  have hx₀ : value x ≠ ⊤ := fun hval =>
    htop (value_add_infinity (s := .positive) h (.inl hval))
  have hz₀ : value z ≠ ⊤ := fun hval =>
    htop (value_add_infinity (s := .positive) h (.inr hval))
  have hy₀ : value y ≠ ⊤ := (hvalue.trans_lt hz₀.lt_top).ne
  exact add_le_add_of_value hx hy hx hz (isNaN_add_of_ne hx hy (.inr ⟨hx₀, hy₀⟩)) h
    (add_le_add_right hvalue _)

/-- What a sum does not exceed it does not exceed with a larger number in it. -/
theorem le_add_of_le (hyz : y ≤ z) (h : c ≤ x + y) (hc : value c ≠ ⊥) : c ≤ x + z := by
  obtain ⟨hnum, hsum⟩ := isNaN_of_le h
  have hvalue := (le_iff_value hnum hsum).1 h
  exact le_le_trans h (add_le_add_of_ne_bot hyz hsum (hc.bot_lt.trans_le hvalue).ne')

/-- What a sum exceeds it exceeds with a larger number in it. -/
theorem lt_add_of_le (hyz : y ≤ z) (h : c < x + y) : c < x + z := by
  obtain ⟨hnum, hsum⟩ := isNaN_of_lt h
  have hvalue := (lt_iff_value hnum hsum).1 h
  exact lt_le_trans h (add_le_add_of_ne_bot hyz hsum (bot_le.trans_lt hvalue).ne')

/-- What exceeds a sum exceeds it with a smaller number in it. -/
theorem add_lt_of_le (hyz : y ≤ z) (h : x + z < c) : x + y < c := by
  obtain ⟨hsum, hnum⟩ := isNaN_of_lt h
  have hvalue := (lt_iff_value hsum hnum).1 h
  exact le_lt_trans (add_le_add_of_ne_top hyz hsum (hvalue.trans_le le_top).ne) h

/-- What a difference exceeds it exceeds with a smaller number taken away. -/
theorem lt_sub_of_le (hyz : y ≤ z) (h : c < x - z) : c < x - y := by
  rw [sub_eq_add] at h ⊢
  exact lt_add_of_le (neg_le_neg_of_le hyz) h

/-- What exceeds a difference exceeds it with a larger number taken away. -/
theorem sub_lt_of_le (hyz : y ≤ z) (h : x - y < c) : x - z < c := by
  rw [sub_eq_add] at h ⊢
  exact add_lt_of_le (neg_le_neg_of_le hyz) h

end

end Vantage.Binary64
