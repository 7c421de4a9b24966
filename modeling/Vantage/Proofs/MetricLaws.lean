/-
**What a metric may be asked to satisfy.**

The tree works with every distance function. Some groups of laws matter for what it promises: a
metric is unsigned when no distance is negative; it is sortable when all its distances are numbers
and the two infinities do not both occur among them, which is enough for every bucket to be divided;
it is tame when all its distances are numbers and none is negative; and it is lawful when the
numbers it returns are the distances of a space, compared as exact extended real numbers and not in
binary64 arithmetic.

Main definitions:

* `Vantage.Metric.OneSided` — at most one of the infinities occurs as a distance;
* `Vantage.Metric.Unsigned`, `Vantage.Metric.Sortable`, `Vantage.Metric.Tame`,
  `Vantage.Metric.Lawful` — the groups of laws;
* `Vantage.skewed` — a distance that is unsigned and in none of the others.

Main results:

* `Metric.Tame.sortable`, `Metric.Tame.unsigned` — a tame metric is sortable and unsigned;
* `Metric.Lawful.le_add` — the distances of a lawful metric have the triangle inequality in binary64
  arithmetic too;
* `lawful_hamming` — the Hamming distance is lawful;
* `hamming_metric` — **the Hamming distance is a true metric in binary64 arithmetic**, and exact.
-/

import Vantage.Metric
import Vantage.Proofs.Binary64.Naturals
import Vantage.Proofs.BitPositions

set_option relaxedAutoImplicit false
set_option autoImplicit false

namespace Vantage

open Binary64 (value value_zero value_ofNat value_add_ofNat nonneg_value_ofNat isNaN_zero
  isNaN_ofNat isNaN_add le_iff_value beq_iff_value)

/-! ### The laws -/

/-- The infinities do not both occur as distances. -/
def Metric.OneSided (d : Metric) : Prop :=
  (∀ x y, value (d x y) ≠ ⊥) ∨ ∀ x y, value (d x y) ≠ ⊤

/-- No distance is negative; one may be infinite, or no number. -/
def Metric.Unsigned (d : Metric) : Prop := ∀ x y, (d x y).isNaN = false → 0 ≤ value (d x y)

/-- Every distance is a number, and the infinities do not both occur. -/
structure Metric.Sortable (d : Metric) : Prop where
  isNumber : ∀ x y, (d x y).isNaN = false
  oneSided : d.OneSided

/-- Every distance is a number, and none is negative. It may be infinite. -/
structure Metric.Tame (d : Metric) : Prop where
  isNumber : ∀ x y, (d x y).isNaN = false
  nonneg : ∀ x y, 0 ≤ value (d x y)

/-- The laws of a distance, for the exact values of the numbers returned. -/
structure Metric.Lawful (d : Metric) : Prop extends Metric.Tame d where
  symm : ∀ x y, value (d x y) = value (d y x)
  triangle : ∀ x y z, value (d x z) ≤ value (d x y) + value (d y z)

/-- Among distances that are not negative there is no negative infinity. -/
theorem Metric.Tame.sortable {d : Metric} (hd : d.Tame) : d.Sortable where
  isNumber := hd.isNumber
  oneSided := .inl fun x y => (EReal.bot_lt_zero.trans_le (hd.nonneg x y)).ne'

theorem Metric.Tame.unsigned {d : Metric} (hd : d.Tame) : d.Unsigned := fun x y _ => hd.nonneg x y

/-- The triangle inequality survives the rounding of the sum. -/
theorem Metric.Lawful.le_add {d : Metric} (hd : d.Lawful) (x y z : UInt64) :
    d x z ≤ d x y + d y z :=
  Binary64.le_add (hd.isNumber x y) (hd.isNumber y z) (hd.isNumber x z)
    (isNaN_add (hd.isNumber x y) (hd.isNumber y z) (hd.nonneg x y) (hd.nonneg y z))
    (hd.triangle x y z)

/-- A distance without laws: the order of its arguments matters, there are shorter ways around, and
one fingerprint is at no distance from any. -/
def skewed : Metric := fun a b =>
  if a = 666 ∨ b = 666 then Float.nan
  else if a < b then hamming a b * hamming a b else hamming a b

/-! ### The Hamming distance -/

theorem popCount_lt (x : UInt64) : popCount 64 x < 2 ^ 53 :=
  lt_of_le_of_lt (popCount_le 64 x) (by norm_num)

/-- The value of a Hamming distance is the number of differing positions. -/
theorem value_hamming (x y : UInt64) : value (hamming x y) = (popCount 64 (x ^^^ y) : ℝ) :=
  value_ofNat (popCount_lt _)

theorem tame_hamming : Metric.Tame hamming where
  isNumber x y := isNaN_ofNat (popCount_lt (x ^^^ y))
  nonneg x y := nonneg_value_ofNat (popCount_lt (x ^^^ y))

theorem sortable_hamming : Metric.Sortable hamming := tame_hamming.sortable

theorem unsigned_skewed : Metric.Unsigned skewed := by
  have hsquare : ∀ n < 65, 0 ≤ Float.ofNat n * Float.ofNat n := by decide +kernel
  intro x y hnumber
  unfold skewed at hnumber ⊢
  split_ifs at hnumber ⊢
  · exact absurd hnumber (by decide +kernel)
  · have hle := hsquare _ (Nat.lt_succ_of_le (popCount_le 64 (x ^^^ y)))
    exact value_zero ▸ (le_iff_value isNaN_zero hnumber).1 hle
  · exact tame_hamming.nonneg x y

theorem hamming_comm (x y : UInt64) : hamming x y = hamming y x := by
  rw [hamming, hamming, UInt64.xor_comm]

/-- **The Hamming distance is lawful.** -/
theorem lawful_hamming : Metric.Lawful hamming where
  toTame := tame_hamming
  symm x y := congrArg value (hamming_comm x y)
  triangle x y z := by
    rw [value_hamming, value_hamming, value_hamming, popCount_xor, popCount_xor, popCount_xor]
    exact_mod_cast hammingDist_triangle (bitAt x) (bitAt y) (bitAt z)

/-- The Hamming distance is the number of positions in which two words differ. -/
theorem hamming_eq_ofNat (x y : UInt64) :
    hamming x y = Float.ofNat (hammingDist (bitAt x) (bitAt y)) :=
  congrArg Float.ofNat (popCount_xor x y)

/-- No word but the word itself is at no distance from it. -/
theorem value_hamming_eq_zero {x y : UInt64} : value (hamming x y) = 0 ↔ x = y := by
  rw [value_hamming, popCount_xor, ← bitAt_injective.eq_iff, ← hammingDist_eq_zero]
  norm_cast

/-- The sum of two Hamming distances is exact. -/
theorem value_add_hamming (x y z : UInt64) :
    value (hamming x y + hamming y z) = value (hamming x y) + value (hamming y z) := by
  have hxy := popCount_le 64 (x ^^^ y)
  have hyz := popCount_le 64 (y ^^^ z)
  exact value_add_ofNat (by omega)

/-- **The Hamming distance is a true metric in binary64 arithmetic.**  It is the number of positions
in which two words differ, which is represented exactly; it is zero between equal words only, and
the zero is the positive one; the order of the words does not matter; and no way by a third word is
shorter, the sum of its two parts being exact. -/
theorem hamming_metric (x y z : UInt64) :
    (hamming x y = Float.ofNat (hammingDist (bitAt x) (bitAt y)) ∧
      value (hamming x y) = (hammingDist (bitAt x) (bitAt y) : ℝ)) ∧
    (hamming x y = 0 ↔ x = y) ∧ (hamming x y == 0 ↔ x = y) ∧
    hamming x y = hamming y x ∧
    hamming x z ≤ hamming x y + hamming y z ∧
    value (hamming x y + hamming y z) = value (hamming x y) + value (hamming y z) := by
  refine ⟨⟨hamming_eq_ofNat x y, ?_⟩, ?_, ?_, hamming_comm x y, lawful_hamming.le_add x y z,
    value_add_hamming x y z⟩
  · rw [value_hamming, popCount_xor]
  · constructor
    · intro h
      rw [← value_hamming_eq_zero, h, value_zero]
    · intro h
      rw [hamming_eq_ofNat, h, hammingDist_self]
      rfl
  · rw [beq_iff_value (tame_hamming.isNumber x y) isNaN_zero, value_zero, value_hamming_eq_zero]

/-- A way on which no position changes twice is as short as the direct one. -/
example : hamming 0xF0 0x0F == hamming 0xF0 0xFF + hamming 0xFF 0x0F := by decide +kernel

end Vantage
