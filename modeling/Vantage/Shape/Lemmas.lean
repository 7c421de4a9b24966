/-
**Powers of words as powers of numbers, and what a usable shape promises.**

Main results:

* `wordPow_eq` — the power of a word by repeated squaring is the power modulo `2 ^ 64`;
* `Shape.Sound.branchFactor`, `Shape.Sound.levelsPerNode`, `Shape.Sound.leafLimit` — what the checks
  of a shape establish;
* `Shape.Sound.fanout_eq`, `Shape.Sound.splits_eq` — the sizes of a branch of a usable shape are
  computed without overflow.
-/

import Mathlib
import Vantage.Shape

set_option relaxedAutoImplicit false
set_option autoImplicit false

namespace Vantage

/-- Repeated squaring computes the power, up to the bits that a word keeps. -/
theorem wordPow_eq (b e : Nat) : wordPow b e = b ^ e % 2 ^ 64 := by
  induction e using Nat.strongRecOn generalizing b with
  | ind e ih =>
    rw [wordPow]
    split
    next h => simp [h]
    next h =>
      have hsq : (b * b % 2 ^ 64) ^ (e / 2) % 2 ^ 64 = b ^ (2 * (e / 2)) % 2 ^ 64 := by
        rw [← Nat.pow_mod, ← Nat.pow_two, ← Nat.pow_mul]
      simp only [show UInt64.size = 2 ^ 64 from rfl, ih (e / 2) (by omega), hsq]
      split
      next h₂ => rw [show 2 * (e / 2) = e by omega]
      next h₂ =>
        rw [Nat.mod_mul_mod, ← Nat.pow_succ, show (2 * (e / 2)).succ = e by omega]

namespace Shape

variable {s : Shape}

/-- A product that grows within the bound stays within it. -/
theorem le_of_growsWithin {b acc n : Nat} (hacc : acc ≤ maxFanout)
    (h : growsWithin b acc n = true) : acc * b ^ n ≤ maxFanout := by
  induction n generalizing acc with
  | zero => simpa using hacc
  | succ n ih =>
    obtain ⟨hfirst, hrest⟩ := Bool.and_eq_true_iff.1 h
    rw [Nat.pow_succ', ← Nat.mul_assoc]
    exact ih (of_decide_eq_true hfirst) hrest

namespace Sound

/-- The checks of a shape, all passed. -/
theorem checks (h : s.Sound) :
    1 < s.branchFactor ∧ s.pathLength ≠ 0 ∧ s.leafCap ≠ 0 ∧ s.levelsPerNode ≠ 0 ∧
      s.syncThreshold ≠ 0 ∧ s.levelsPerNode ≤ s.leafLimit ∧
      growsWithin s.branchFactor 1 s.levelsPerNode = true := by
  simpa [Sound, defect?, ite_eq_iff] using h

theorem branchFactor (h : s.Sound) : 2 ≤ s.branchFactor := h.checks.1

theorem pathLength (h : s.Sound) : 0 < s.pathLength := Nat.pos_of_ne_zero h.checks.2.1

theorem levelsPerNode (h : s.Sound) : 0 < s.levelsPerNode :=
  Nat.pos_of_ne_zero h.checks.2.2.2.1

theorem leafLimit (h : s.Sound) : s.levelsPerNode ≤ s.leafLimit := h.checks.2.2.2.2.2.1

theorem pow_le (h : s.Sound) : s.branchFactor ^ s.levelsPerNode ≤ maxFanout := by
  have := le_of_growsWithin (by decide) h.checks.2.2.2.2.2.2
  rwa [Nat.one_mul] at this

/-- A usable shape has few levels, since every level at least doubles the fanout. -/
theorem levels_le (h : s.Sound) : s.levelsPerNode ≤ 20 := by
  have hpow : s.branchFactor ^ s.levelsPerNode ≤ 2 ^ 20 := h.pow_le
  have htwo := Nat.pow_le_pow_left h.branchFactor s.levelsPerNode
  exact (Nat.pow_le_pow_iff_right (by norm_num)).1 (htwo.trans hpow)

/-- Powers up to the fanout of a usable shape are the powers themselves. -/
theorem wordPow_mod_eq (h : s.Sound) {n : ℕ} (hn : n ≤ s.levelsPerNode) :
    wordPow s.branchFactor (n % UInt32.size) = s.branchFactor ^ n := by
  have hlevels := h.levels_le
  have hle : s.branchFactor ^ n ≤ 2 ^ 20 :=
    (Nat.pow_le_pow_right (Nat.lt_of_lt_of_le (by decide) h.branchFactor) hn).trans h.pow_le
  rw [wordPow_eq, Nat.mod_eq_of_lt (show n < UInt32.size by
    rw [show UInt32.size = 2 ^ 32 from rfl]; omega)]
  exact Nat.mod_eq_of_lt (lt_of_le_of_lt hle (by norm_num))

/-- The fanout of a usable shape is the power itself. -/
theorem fanout_eq (h : s.Sound) : s.fanout = s.branchFactor ^ s.levelsPerNode :=
  h.wordPow_mod_eq le_rfl

/-- So is the number of buckets of each level. -/
theorem splits_eq (h : s.Sound) {level : ℕ} (hlevel : level < s.levelsPerNode) :
    s.splits level = s.branchFactor ^ level :=
  h.wordPow_mod_eq hlevel.le

end Sound

/-- A shape with as little room as a usable shape can have. -/
def smallest : Shape where
  branchFactor := 2
  pathLength := 1
  leafCap := 1
  levelsPerNode := 1
  syncThreshold := 1

theorem smallest_sound : smallest.Sound := by decide

end Shape

end Vantage
