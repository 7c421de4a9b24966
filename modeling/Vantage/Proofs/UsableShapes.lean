/-
**Which shapes can be used, and how large their branches are.**

The product that is to stay within the largest fanout is checked at every step, and it can only
grow; so it stays within it exactly when the whole power does. A shape that passes has few levels,
and the powers that are taken of its constants are the powers themselves, although they are computed
in words, with an exponent of 32 bits.

Main definitions:

* `Shape.hasDefect` — each defect on its own, whatever else is wrong with the shape;
* `Shape.Defect.ranking` — the defects in the order in which they are looked for.

Main results:

* `Shape.growsWithin_iff` — the stepwise check is the check of the whole power;
* `Shape.Sound.fanout_eq_mul`, `Shape.Sound.sum_buckets_new` — the sizes of a new branch;
* `Shape.reports_first_defect` — **the first defect is reported**, and a shape without defects has
  the sizes that its constants call for.
-/

import Vantage.Shape.Lemmas
import Vantage.Tree.Search

set_option relaxedAutoImplicit false
set_option autoImplicit false

namespace Vantage.Shape

variable {s : Shape}

/-! ### Defects -/

/-- Whether the shape has the defect, whatever else is wrong with it. -/
def hasDefect (s : Shape) : Defect → Bool
  | .narrowBranch => s.branchFactor < 2
  | .noPath => s.pathLength = 0
  | .noLeafRoom => s.leafCap = 0
  | .noLevels => s.levelsPerNode = 0
  | .noThreshold => s.syncThreshold = 0
  | .deepBranch => s.leafCap + s.pathLength < s.levelsPerNode
  | .wideBranch => 2 ^ 20 < s.branchFactor ^ s.levelsPerNode

/-- The defects in the order in which they are looked for. -/
def Defect.ranking : List Defect :=
  [.narrowBranch, .noPath, .noLeafRoom, .noLevels, .noThreshold, .deepBranch, .wideBranch]

/-- A product that grows stays within the bound at every step exactly when it does at the last. -/
theorem growsWithin_iff {b acc n : ℕ} (hb : 0 < b) (hacc : acc ≤ maxFanout) :
    growsWithin b acc n = true ↔ acc * b ^ n ≤ maxFanout := by
  refine ⟨le_of_growsWithin hacc, fun h => ?_⟩
  induction n generalizing acc with
  | zero => rfl
  | succ n ih =>
      rw [Nat.pow_succ', ← Nat.mul_assoc] at h
      have hfirst : acc * b ≤ maxFanout := (Nat.le_mul_of_pos_right _ (Nat.pow_pos hb)).trans h
      exact Bool.and_eq_true_iff.2 ⟨decide_eq_true hfirst, ih hfirst h⟩

/-- **The defect that is reported is the first of them.** -/
theorem defect?_eq_find? (s : Shape) :
    s.defect? = Defect.ranking.find? s.hasDefect := by
  by_cases hnarrow : s.branchFactor < 2
  · simp [defect?, Defect.ranking, hasDefect, hnarrow]
  · have hwide : growsWithin s.branchFactor 1 s.levelsPerNode = true ↔
        s.branchFactor ^ s.levelsPerNode ≤ 1048576 := by
      rw [growsWithin_iff (by omega) (by decide), Nat.one_mul, maxFanout]
    unfold defect? leafLimit
    rw [if_neg hnarrow]
    simp only [hwide]
    split_ifs <;> simp [Defect.ranking, hasDefect, *]

/-- A shape can be used when it has none of the defects. -/
theorem sound_iff : s.Sound ↔
    2 ≤ s.branchFactor ∧ s.pathLength ≠ 0 ∧ s.leafCap ≠ 0 ∧ s.levelsPerNode ≠ 0 ∧
      s.syncThreshold ≠ 0 ∧ s.levelsPerNode ≤ s.leafCap + s.pathLength ∧
      s.branchFactor ^ s.levelsPerNode ≤ 2 ^ 20 := by
  rw [Sound, defect?_eq_find?, List.find?_eq_none]
  simp [Defect.ranking, hasDefect, Nat.succ_le_iff]

/-! ### Sizes of a branch -/

namespace Sound

/-- The last level of a branch divides as many buckets as its place in the branch calls for. -/
theorem lastSplits_eq (h : s.Sound) :
    s.lastSplits = s.branchFactor ^ (s.levelsPerNode - 1) :=
  h.wordPow_mod_eq (Nat.sub_le _ 1)

/-- Each bucket that the last level divides has a place for a child for each of its parts. -/
theorem fanout_eq_mul (h : s.Sound) : s.fanout = s.branchFactor * s.lastSplits := by
  have hlevels := h.levelsPerNode
  rw [h.fanout_eq, h.lastSplits_eq, ← Nat.pow_succ']
  congr 1
  omega

/-- The buckets of all levels of a new branch, which are the powers below the fanout. -/
theorem sum_buckets_new (h : s.Sound) (π κ : Type) :
    ((Branch.new s : Branch π κ).levels.map Level.buckets).sum =
      (s.fanout - 1) / (s.branchFactor - 1) := by
  have hsplits : (List.range s.levelsPerNode).map s.splits =
      (List.range s.levelsPerNode).map (s.branchFactor ^ ·) :=
    List.map_congr_left fun level hlevel => h.splits_eq (List.mem_range.1 hlevel)
  calc ((Branch.new s : Branch π κ).levels.map Level.buckets).sum
      = ((List.range s.levelsPerNode).map s.splits).sum := by
        simp only [Branch.new, List.map_map]
        rfl
    _ = ∑ level ∈ Finset.range s.levelsPerNode, s.branchFactor ^ level := by
        rw [hsplits]
        rfl
    _ = (s.fanout - 1) / (s.branchFactor - 1) := by
        rw [Nat.geomSum_eq h.branchFactor, h.fanout_eq]

end Sound

/-- **The first defect of a shape is reported**, in a fixed order; a shape without defects has few
levels, and its branches have the sizes that its constants call for. -/
theorem reports_first_defect (s : Shape) :
    s.defect? = Defect.ranking.find? s.hasDefect ∧
    (s.defect? = none ↔ 2 ≤ s.branchFactor ∧ s.pathLength ≠ 0 ∧ s.leafCap ≠ 0 ∧
      s.levelsPerNode ≠ 0 ∧ s.syncThreshold ≠ 0 ∧ s.levelsPerNode ≤ s.leafCap + s.pathLength ∧
      s.branchFactor ^ s.levelsPerNode ≤ 2 ^ 20) ∧
    (s.defect? = none → s.levelsPerNode ≤ 20 ∧
      s.fanout = s.branchFactor ^ s.levelsPerNode ∧
      s.lastSplits = s.branchFactor ^ (s.levelsPerNode - 1) ∧
      s.fanout = s.branchFactor * s.lastSplits ∧
      ((Branch.new s : Branch Nat Subtree).levels.map Level.buckets).sum =
        (s.fanout - 1) / (s.branchFactor - 1)) :=
  ⟨s.defect?_eq_find?, sound_iff, fun h => ⟨Sound.levels_le h, Sound.fanout_eq h,
    Sound.lastSplits_eq h, Sound.fanout_eq_mul h, Sound.sum_buckets_new h Nat Subtree⟩⟩

/-- The usual shape, and one that has two defects. -/
theorem reports_first_defect_usual :
    ({} : Shape).defect? = none ∧ ({} : Shape).fanout = 64 ∧ ({} : Shape).lastSplits = 32 ∧
      ((Branch.new {} : Branch Nat Subtree).levels.map Level.buckets).sum = 63 ∧
      ({ leafCap := 0, levelsPerNode := 2 ^ 32 } : Shape).defect? = some .noLeafRoom := by
  have husual : ({} : Shape).defect? = none := by decide
  obtain ⟨-, -, hsizes⟩ := reports_first_defect {}
  obtain ⟨-, hfanout, hlast, -, hbuckets⟩ := hsizes husual
  rw [hfanout] at hbuckets
  exact ⟨husual, hfanout, hlast, hbuckets, (reports_first_defect _).1⟩

end Vantage.Shape
