/-
**Binary64 numbers counted in ticks.**

A finite binary64 number is a whole number of ticks of `2 ^ -1074`.  With `2 ^ 2098` ticks for an
infinity, more than any finite number has, the order of the numbers is the order of their ticks.

Main definitions:

* `Vantage.Binary64.ticksOf`, `Vantage.Binary64.ticks` — the ticks of a number;
* `Vantage.Binary64.NearInt` — nearness of signed counts, up to the ticks of an infinity.

Main results:

* `Vantage.Binary64.le_iff_ticks`, `Vantage.Binary64.lt_iff_ticks`,
  `Vantage.Binary64.beq_iff_ticks` — **comparing numbers is comparing their ticks**, unless one of
  them is not a number;
* `Vantage.Binary64.near_normalize` — rounding a signed mantissa steps over no short number.
-/

import Vantage.Proofs.Binary64.Rounding

set_option relaxedAutoImplicit false
set_option autoImplicit false

namespace Vantage.Binary64

open Float.Model (UnpackedFloat Format)
open Float.Model.UnpackedFloat

/-! ### Ticks -/

/-- The place of the first bit that lies beyond every finite number. -/
@[irreducible] def limitPlace : ℕ := 2098

/-- The ticks of an infinity. -/
def limit : ℕ := 2 ^ limitPlace

/-- The ticks of a number taken apart. -/
def ticksOf : UnpackedFloat → ℤ
  | .infinity s => s.apply limit
  | .notANumber => 0
  | .zero _ => 0
  | .finite s m e _ => s.apply (m * 2 ^ (e + 1074).toNat : ℕ)

/-- The ticks of a number. -/
def ticks (x : Float) : ℤ := ticksOf (parts x)

theorem ticksOf_infinity_positive : ticksOf (.infinity .positive) = limit := rfl

theorem ticksOf_infinity_negative : ticksOf (.infinity .negative) = -limit := rfl

@[simp] theorem ticksOf_zero (s : Sign) : ticksOf (.zero s) = 0 := rfl

theorem limit_pos : 0 < limit := by
  rw [limit]
  positivity

theorem limitPlace_eq : limitPlace = 2098 := by rw [limitPlace]

theorem apply_neg (s : Sign) (n : ℤ) : (-s).apply n = -s.apply n := by
  cases s with
  | negative => exact (neg_neg n).symm
  | positive => rfl

/-- The ticks of a rounded number stay below the limit as long as its exponent fits. -/
theorem ticks_lt_limit {m : ℕ} {e : ℤ} (h : Rounded m e) (he : e ≤ 971) :
    m * 2 ^ (e + 1074).toNat < limit := by
  obtain ⟨hm, he', -⟩ := h
  calc m * 2 ^ (e + 1074).toNat < 2 ^ 53 * 2 ^ (e + 1074).toNat :=
        Nat.mul_lt_mul_of_pos_right hm (by positivity)
    _ = 2 ^ (53 + (e + 1074).toNat) := by rw [pow_add]
    _ ≤ 2 ^ limitPlace := Nat.pow_le_pow_right (by norm_num) (by rw [limitPlace_eq]; omega)

/-- If the exponent does not fit, there are as many ticks as an infinity has, or more. -/
theorem limit_le_ticks {m : ℕ} {e : ℤ} (h : Rounded m e) (he : ¬ e ≤ 971) :
    limit ≤ m * 2 ^ (e + 1074).toNat := by
  obtain ⟨-, -, hm⟩ := h
  have hfull : 2 ^ 52 ≤ m := hm.resolve_right (by omega)
  calc 2 ^ limitPlace ≤ 2 ^ (52 + (e + 1074).toNat) :=
        Nat.pow_le_pow_right (by norm_num) (by rw [limitPlace_eq]; omega)
    _ = 2 ^ 52 * 2 ^ (e + 1074).toNat := by rw [pow_add]
    _ ≤ m * 2 ^ (e + 1074).toNat := Nat.mul_le_mul_right _ hfull

/-- A mantissa of 53 bits with a larger exponent reaches beyond every mantissa with a smaller
one. -/
theorem two_pow_mul_le {m k l : ℕ} (hm : 2 ^ 52 ≤ m) (h : k < l) : 2 ^ 53 * 2 ^ k ≤ m * 2 ^ l :=
  calc 2 ^ 53 * 2 ^ k = 2 ^ (53 + k) := by rw [pow_add]
    _ ≤ 2 ^ (52 + l) := Nat.pow_le_pow_right (by norm_num) (by omega)
    _ = 2 ^ 52 * 2 ^ l := by rw [pow_add]
    _ ≤ m * 2 ^ l := Nat.mul_le_mul_right _ hm

/-- A larger exponent means more ticks, whatever the mantissas. -/
theorem ticks_lt_of_exponent_lt {m₁ m₂ : ℕ} {e₁ e₂ : ℤ} (h₁ : Rounded m₁ e₁)
    (h₂ : Rounded m₂ e₂) (h : e₁ < e₂) :
    m₁ * 2 ^ (e₁ + 1074).toNat < m₂ * 2 ^ (e₂ + 1074).toNat := by
  obtain ⟨hm₁, he₁, -⟩ := h₁
  obtain ⟨-, -, hm₂⟩ := h₂
  have hfull : 2 ^ 52 ≤ m₂ := hm₂.resolve_right (by omega)
  exact (Nat.mul_lt_mul_of_pos_right hm₁ (by positivity)).trans_le
    (two_pow_mul_le hfull (by omega))

/-! ### Order -/

/-- Comparing exponents and then mantissas is comparing ticks. -/
theorem compare_finite {m₁ m₂ : ℕ} {e₁ e₂ : ℤ} (h₁ : Rounded m₁ e₁) (h₂ : Rounded m₂ e₂) :
    (compare e₁ e₂).then (compare m₁ m₂) =
      compare (m₁ * 2 ^ (e₁ + 1074).toNat) (m₂ * 2 ^ (e₂ + 1074).toNat) := by
  rcases lt_trichotomy e₁ e₂ with h | h | h
  · rw [compare_lt_iff_lt.2 h, compare_lt_iff_lt.2 (ticks_lt_of_exponent_lt h₁ h₂ h)]
    rfl
  · subst h
    rw [compare_eq_iff_eq.2 rfl]
    change compare m₁ m₂ = _
    have hp : 0 < 2 ^ (e₁ + 1074).toNat := by positivity
    rcases lt_trichotomy m₁ m₂ with h | h | h
    · rw [compare_lt_iff_lt.2 h, compare_lt_iff_lt.2 (Nat.mul_lt_mul_of_pos_right h hp)]
    · subst h
      rw [compare_eq_iff_eq.2 rfl, compare_eq_iff_eq.2 rfl]
    · rw [compare_gt_iff_gt.2 h, compare_gt_iff_gt.2 (Nat.mul_lt_mul_of_pos_right h hp)]
  · rw [compare_gt_iff_gt.2 h, compare_gt_iff_gt.2 (ticks_lt_of_exponent_lt h₂ h₁ h)]
    rfl

theorem compare_neg_neg (a b : ℤ) : compare (-a) (-b) = (compare a b).swap := by
  rw [Int.compare_swap]
  rcases lt_trichotomy a b with h | h | h
  · rw [compare_gt_iff_gt.2 (by omega : -b < -a), compare_gt_iff_gt.2 h]
  · rw [compare_eq_iff_eq.2 (by omega : -a = -b), compare_eq_iff_eq.2 h.symm]
  · rw [compare_lt_iff_lt.2 (by omega : -a < -b), compare_lt_iff_lt.2 h]

theorem compare_natCast (a b : ℕ) : compare (a : ℤ) (b : ℤ) = compare a b := by
  rcases lt_trichotomy a b with h | h | h
  · rw [compare_lt_iff_lt.2 h, compare_lt_iff_lt.2 (by omega : (a : ℤ) < b)]
  · rw [compare_eq_iff_eq.2 h, compare_eq_iff_eq.2 (by omega : (a : ℤ) = b)]
  · rw [compare_gt_iff_gt.2 h, compare_gt_iff_gt.2 (by omega : (b : ℤ) < a)]

/-- A finite number has fewer ticks, of either sign, than an infinity, and more than none. -/
theorem ticks_bounds {m : ℕ} {e : ℤ} (h : Rounded m e) (he : e ≤ 971) (hm : 0 < m) :
    0 < ((m * 2 ^ (e + 1074).toNat : ℕ) : ℤ) ∧ ((m * 2 ^ (e + 1074).toNat : ℕ) : ℤ) < limit := by
  have h₁ : 0 < m * 2 ^ (e + 1074).toNat := by positivity
  have h₂ := ticks_lt_limit h he
  omega

/-- **Comparing rounded numbers is comparing their ticks.** -/
theorem compare_eq_ticks {u v : UnpackedFloat} (hu : RoundedParts u) (hv : RoundedParts v)
    (fu : Fits u) (fv : Fits v) (nu : u.isNaN = false) (nv : v.isNaN = false) :
    u.compare v = some (compare (ticksOf u) (ticksOf v)) := by
  have hlim : (0 : ℤ) < limit := by exact_mod_cast limit_pos
  -- infinities have as many ticks as the limit, and every finite number fewer
  cases u with
  | notANumber => cases nu
  | infinity s =>
      cases v with
      | notANumber => cases nv
      | infinity t =>
          cases s <;> cases t <;> simp only [UnpackedFloat.compare, ticksOf, Sign.apply] <;>
            congr 1 <;> symm
          · exact compare_eq_iff_eq.2 rfl
          · exact compare_lt_iff_lt.2 (by omega)
          · exact compare_gt_iff_gt.2 (by omega)
          · exact compare_eq_iff_eq.2 rfl
      | zero t =>
          cases s <;> simp only [UnpackedFloat.compare, ticksOf, Sign.apply] <;> congr 1 <;> symm
          · exact compare_lt_iff_lt.2 (by omega)
          · exact compare_gt_iff_gt.2 (by omega)
      | finite t n f hn =>
          have hb := ticks_bounds hv fv hn
          cases s <;> cases t <;> simp only [UnpackedFloat.compare, ticksOf, Sign.apply] <;>
            congr 1 <;> symm
          · exact compare_lt_iff_lt.2 (by omega)
          · exact compare_lt_iff_lt.2 (by omega)
          · exact compare_gt_iff_gt.2 (by omega)
          · exact compare_gt_iff_gt.2 (by omega)
  | zero s =>
      cases v with
      | notANumber => cases nv
      | infinity t =>
          cases t <;> simp only [UnpackedFloat.compare, ticksOf, Sign.apply] <;> congr 1 <;> symm
          · exact compare_gt_iff_gt.2 (by omega)
          · exact compare_lt_iff_lt.2 (by omega)
      | zero t =>
          simp only [UnpackedFloat.compare, ticksOf]
          rw [compare_eq_iff_eq.2 rfl]
      | finite t n f hn =>
          have hb := ticks_bounds hv fv hn
          cases t <;> simp only [UnpackedFloat.compare, ticksOf, Sign.apply] <;> congr 1 <;> symm
          · exact compare_gt_iff_gt.2 (by omega)
          · exact compare_lt_iff_lt.2 (by omega)
  | finite s m e hm =>
      have ha := ticks_bounds hu fu hm
      cases v with
      | notANumber => cases nv
      | infinity t =>
          cases s <;> cases t <;> simp only [UnpackedFloat.compare, ticksOf, Sign.apply] <;>
            congr 1 <;> symm
          · exact compare_gt_iff_gt.2 (by omega)
          · exact compare_lt_iff_lt.2 (by omega)
          · exact compare_gt_iff_gt.2 (by omega)
          · exact compare_lt_iff_lt.2 (by omega)
      | zero t =>
          cases s <;> simp only [UnpackedFloat.compare, ticksOf, Sign.apply] <;> congr 1 <;> symm
          · exact compare_lt_iff_lt.2 (by omega)
          · exact compare_gt_iff_gt.2 (by omega)
      | finite t n f hn =>
          have hb := ticks_bounds hv fv hn
          cases s <;> cases t <;> simp only [UnpackedFloat.compare, ticksOf, Sign.apply] <;>
            congr 1
          · rw [compare_finite hu hv, compare_neg_neg, compare_natCast]
          · exact (compare_lt_iff_lt.2 (by omega)).symm
          · exact (compare_gt_iff_gt.2 (by omega)).symm
          · rw [compare_finite hu hv, compare_natCast]

theorem isNaN_eq (x : Float) : x.isNaN = (parts x).isNaN := rfl

theorem le_eq (x y : Float) : x ≤ y ↔ UnpackedFloat.le (parts x) (parts y) = true := by
  change decide (UnpackedFloat.le (parts x) (parts y) = true) = true ↔ _
  rw [decide_eq_true_iff]

theorem lt_eq (x y : Float) : x < y ↔ UnpackedFloat.lt (parts x) (parts y) = true := by
  change decide (UnpackedFloat.lt (parts x) (parts y) = true) = true ↔ _
  rw [decide_eq_true_iff]

section

variable {x y : Float}

theorem compare_parts (hx : x.isNaN = false) (hy : y.isNaN = false) :
    (parts x).compare (parts y) = some (compare (ticks x) (ticks y)) :=
  compare_eq_ticks (rounded_parts x) (rounded_parts y) (fits_parts x) (fits_parts y) hx hy

/-- **The order of numbers is the order of their ticks.** -/
theorem le_iff_ticks (hx : x.isNaN = false) (hy : y.isNaN = false) :
    x ≤ y ↔ ticks x ≤ ticks y := by
  rw [le_eq, UnpackedFloat.le, compare_parts hx hy, Option.any_some, Ordering.isLE_iff_ne_gt]
  exact compare_le_iff_le

/-- **The strict order of numbers is the strict order of their ticks.** -/
theorem lt_iff_ticks (hx : x.isNaN = false) (hy : y.isNaN = false) :
    x < y ↔ ticks x < ticks y := by
  rw [lt_eq, UnpackedFloat.lt, compare_parts hx hy, beq_iff_eq, Option.some_inj,
    compare_lt_iff_lt]

theorem beq_eq (x y : Float) : (x == y) = UnpackedFloat.beq (parts x) (parts y) := rfl

/-- **Numbers are equal when their ticks are.** The two zeros have none. -/
theorem beq_iff_ticks (hx : x.isNaN = false) (hy : y.isNaN = false) :
    x == y ↔ ticks x = ticks y := by
  rw [beq_eq, UnpackedFloat.beq, compare_parts hx hy, beq_iff_eq, Option.some_inj,
    compare_eq_iff_eq]

theorem compare_eq_none_of_left {u v : UnpackedFloat} (h : u.isNaN = true) :
    u.compare v = none := by
  cases u <;> first | rfl | cases h

theorem compare_eq_none_of_right {u v : UnpackedFloat} (h : v.isNaN = true) :
    u.compare v = none := by
  cases v with
  | notANumber => cases u with
    | infinity s => cases s <;> rfl
    | finite s m e hm => cases s <;> rfl
    | _ => rfl
  | _ => cases h

/-- What compares is a number. -/
theorem isNaN_of_le (h : x ≤ y) : x.isNaN = false ∧ y.isNaN = false := by
  rw [le_eq, UnpackedFloat.le] at h
  constructor
  · rw [isNaN_eq, ← Bool.not_eq_true]
    intro hx
    rw [compare_eq_none_of_left hx] at h
    cases h
  · rw [isNaN_eq, ← Bool.not_eq_true]
    intro hy
    rw [compare_eq_none_of_right hy] at h
    cases h

/-- What compares strictly is a number. -/
theorem isNaN_of_lt (h : x < y) : x.isNaN = false ∧ y.isNaN = false := by
  rw [lt_eq, UnpackedFloat.lt] at h
  constructor
  · rw [isNaN_eq, ← Bool.not_eq_true]
    intro hx
    rw [compare_eq_none_of_left hx] at h
    cases h
  · rw [isNaN_eq, ← Bool.not_eq_true]
    intro hy
    rw [compare_eq_none_of_right hy] at h
    cases h

theorem le_or_lt_of_isNaN (hx : x.isNaN = false) (hy : y.isNaN = false) : x ≤ y ∨ y < x := by
  rw [le_iff_ticks hx hy, lt_iff_ticks hy hx]
  exact le_or_gt _ _

/-- A number is at most itself. -/
theorem le_self (hx : x.isNaN = false) : x ≤ x := (le_iff_ticks hx hx).2 le_rfl

theorem le_le_trans {z : Float} (h₁ : x ≤ y) (h₂ : y ≤ z) : x ≤ z := by
  obtain ⟨hx, hy⟩ := isNaN_of_le h₁
  obtain ⟨-, hz⟩ := isNaN_of_le h₂
  exact (le_iff_ticks hx hz).2 (((le_iff_ticks hx hy).1 h₁).trans ((le_iff_ticks hy hz).1 h₂))

theorem lt_le_trans {z : Float} (h₁ : x < y) (h₂ : y ≤ z) : x < z := by
  obtain ⟨hx, hy⟩ := isNaN_of_lt h₁
  obtain ⟨-, hz⟩ := isNaN_of_le h₂
  exact (lt_iff_ticks hx hz).2 (((lt_iff_ticks hx hy).1 h₁).trans_le ((le_iff_ticks hy hz).1 h₂))

theorem le_lt_trans {z : Float} (h₁ : x ≤ y) (h₂ : y < z) : x < z := by
  obtain ⟨hx, hy⟩ := isNaN_of_le h₁
  obtain ⟨-, hz⟩ := isNaN_of_lt h₂
  exact (lt_iff_ticks hx hz).2 (((le_iff_ticks hx hy).1 h₁).trans_lt ((lt_iff_ticks hy hz).1 h₂))

/-- A number is not below itself. -/
theorem not_lt_self (x : Float) : ¬ x < x := fun h =>
  lt_irrefl _ ((lt_iff_ticks (isNaN_of_lt h).1 (isNaN_of_lt h).1).1 h)

end

/-! ### Signed counts -/

/-- No short count, of either sign and up to the ticks of an infinity, lies strictly between. -/
def NearInt (n r : ℤ) : Prop :=
  ∀ c : ℤ, Short c.natAbs → c.natAbs ≤ limit → (c ≤ n → c ≤ r) ∧ (n ≤ c → r ≤ c)

theorem NearInt.refl (n : ℤ) : NearInt n n := fun _ _ _ => ⟨id, id⟩

theorem NearInt.neg {n r : ℤ} (h : NearInt n r) : NearInt (-n) (-r) := by
  intro c hc hlim
  obtain ⟨h₁, h₂⟩ := h (-c) (by rwa [Int.natAbs_neg]) (by rwa [Int.natAbs_neg])
  constructor
  · intro hcn
    have := h₂ (by omega)
    omega
  · intro hnc
    have := h₁ (by omega)
    omega

/-- Nearness of counts, and then the cut at the ticks of an infinity, is nearness of signed ones. -/
theorem Near.nearInt {n r : ℕ} (h : Near n r) (s : Sign) :
    NearInt (s.apply n) (s.apply (min r limit : ℕ)) := by
  have hpos : NearInt (n : ℤ) ((min r limit : ℕ) : ℤ) := by
    intro c hc hlim
    obtain ⟨h₁, h₂⟩ := h c.natAbs hc
    constructor
    · intro hcn
      by_cases h₀ : 0 ≤ c
      · have := h₁ (by omega)
        omega
      · omega
    · intro hnc
      have := h₂ (by omega)
      omega
  cases s with
  | negative => exact hpos.neg
  | positive => exact hpos

/-- The ticks of a packed number: those that it had, cut at the ticks of an infinity. -/
theorem ticksOf_unpack_pack {s : Sign} {r : ℕ} {t : ℤ} {hr : 0 < r} (h : Rounded r t) :
    ticksOf (UnpackedFloat.unpack Format.binary64
      (UnpackedFloat.pack Format.binary64 (.finite s r t hr))) =
        s.apply (min (r * 2 ^ (t + 1074).toNat) limit : ℕ) := by
  rw [unpack_pack (u := .finite s r t hr) h]
  by_cases ht : t ≤ 971
  · have hlt := ticks_lt_limit h ht
    simp only [ht, if_true, ticksOf, min_eq_left hlt.le]
  · have hle := limit_le_ticks h ht
    simp only [ht, if_false, ticksOf, min_eq_right hle]

/-- What a finite number becomes when it is rounded, packed and unpacked. -/
def settled (u : UnpackedFloat) : UnpackedFloat :=
  UnpackedFloat.unpack Format.binary64 (UnpackedFloat.pack Format.binary64 u)

/-- Rounding a mantissa with a sign gives a number, and steps over no short count of ticks. -/
theorem near_settled_round (s : Sign) {n : ℕ} {e : ℤ} (hn : 0 < n) (he : -1074 ≤ e) :
    (settled (UnpackedFloat.round Format.binary64 s n e)).isNaN = false ∧
    NearInt (s.apply n * 2 ^ (e + 1074).toNat)
      (ticksOf (settled (UnpackedFloat.round Format.binary64 s n e))) := by
  obtain ⟨r, t, hr, hround, hrounded, hnear⟩ := near_round s hn he
  rw [hround, settled]
  constructor
  · rw [unpack_pack (u := .finite s r t hr) hrounded]
    by_cases ht : t ≤ 971 <;> simp only [ht, if_true, if_false] <;> rfl
  · rw [ticksOf_unpack_pack hrounded]
    have hval : s.apply n * 2 ^ (e + 1074).toNat = s.apply (n * 2 ^ (e + 1074).toNat : ℕ) := by
      cases s <;> simp [Sign.apply]
    rw [hval]
    exact hnear.nearInt s

/-- **Rounding a signed mantissa** gives a number, and steps over no short count of ticks. -/
theorem near_normalize (m : ℤ) {e : ℤ} (z : Sign) (he : -1074 ≤ e) :
    (settled (UnpackedFloat.normalize Format.binary64 m e z)).isNaN = false ∧
    NearInt (m * 2 ^ (e + 1074).toNat)
      (ticksOf (settled (UnpackedFloat.normalize Format.binary64 m e z))) := by
  rcases lt_trichotomy m 0 with h | h | h
  · rw [UnpackedFloat.normalize, compare_lt_iff_lt.2 h]
    have hm : Sign.negative.apply (-m).toNat = m := by
      simp only [Sign.apply]
      omega
    have hnear := near_settled_round .negative (show 0 < (-m).toNat by omega) he
    rwa [hm] at hnear
  · have hz : UnpackedFloat.normalize Format.binary64 m e z = .zero z := by
      rw [UnpackedFloat.normalize, compare_eq_iff_eq.2 h]
    rw [hz, settled, unpack_pack (u := .zero z) trivial, h, zero_mul]
    exact ⟨rfl, NearInt.refl 0⟩
  · rw [UnpackedFloat.normalize, compare_gt_iff_gt.2 h]
    have hm : Sign.positive.apply m.toNat = m := by
      simp only [Sign.apply]
      omega
    have hnear := near_settled_round .positive (show 0 < m.toNat by omega) he
    rwa [hm] at hnear

end Vantage.Binary64
