/-
**The five constants that fix the shape of a tree.**

A branch has `levelsPerNode` vantage points; each of them splits every bucket of the level before
into `branchFactor` buckets, so that a branch has `branchFactor ^ levelsPerNode` places for
children. A leaf has `pathLength` vantage points and room for `leafCap` further points. Arrivals
are flushed once `syncThreshold` of them are waiting.

Main definitions:

* `Vantage.Shape` — the constants, with their usual values as defaults;
* `Shape.fanout`, `Shape.lastSplits` — the sizes of a branch, computed in 64-bit words;
* `Shape.leafLimit` — the largest number of points that is still kept in one leaf;
* `Shape.Defect`, `Shape.defect?` — what can be wrong with a shape, and the first thing that is.
-/

set_option relaxedAutoImplicit false
set_option autoImplicit false

namespace Vantage

/-! ### Powers of words -/

/-- `b ^ e` modulo `2 ^ 64`, by repeated squaring. -/
def wordPow (b e : Nat) : Nat :=
  if e = 0 then 1
  else
    let half := wordPow (b * b % UInt64.size) (e / 2)
    if e % 2 = 0 then half else half * b % UInt64.size
termination_by e

/-! ### Shapes -/

/-- The structural constants of a tree; they never change while the tree lives. -/
structure Shape where
  /-- Buckets into which each level of a branch splits a bucket of the level before. -/
  branchFactor : Nat := 2
  /-- Vantage points of a leaf. -/
  pathLength : Nat := 16
  /-- Points that a leaf keeps beside its vantage points. -/
  leafCap : Nat := 100
  /-- Vantage points, and so levels, of a branch. -/
  levelsPerNode : Nat := 6
  /-- Waiting arrivals that set off a flush. -/
  syncThreshold : Nat := 500
deriving DecidableEq, Repr

namespace Shape

/-- The number of places for children in a branch. The exponent counts by its low 32 bits and the
power by its low 64. -/
def fanout (s : Shape) : Nat := wordPow s.branchFactor (s.levelsPerNode % UInt32.size)

/-- The number of buckets that the last level of a branch splits. -/
def lastSplits (s : Shape) : Nat := wordPow s.branchFactor ((s.levelsPerNode - 1) % UInt32.size)

/-- The number of buckets that the level of the given number splits. -/
def splits (s : Shape) (level : Nat) : Nat := wordPow s.branchFactor (level % UInt32.size)

/-- The largest number of points that becomes, or stays, a leaf. -/
def leafLimit (s : Shape) : Nat := s.leafCap + s.pathLength

/-! ### Shapes that cannot be used -/

/-- What can be wrong with a shape. -/
inductive Defect where
  | narrowBranch
  | noPath
  | noLeafRoom
  | noLevels
  | noThreshold
  /-- A node that outgrows a leaf might have too few points to become a branch. -/
  | deepBranch
  /-- A branch would have more than `2 ^ 20` places for children. -/
  | wideBranch
deriving DecidableEq, Repr

/-- The wording of a defect. -/
def Defect.message : Defect → String
  | narrowBranch => "branch_factor must be at least 2"
  | noPath => "path_length must be non-zero"
  | noLeafRoom => "leaf_cap must be non-zero"
  | noLevels => "levels_per_node must be non-zero"
  | noThreshold => "sync_threshold must be non-zero"
  | deepBranch => "levels_per_node must not exceed leaf_cap + path_length"
  | wideBranch => "branch_factor ^ levels_per_node is too large"

/-- The largest fanout allowed, `2 ^ 20`. -/
def maxFanout : Nat := 1048576

/-- Whether `acc`, multiplied by `b` the given number of times, stays within the largest fanout
allowed at every step. -/
def growsWithin (b acc : Nat) : Nat → Bool
  | 0 => true
  | n + 1 => acc * b ≤ maxFanout && growsWithin b (acc * b) n

/-- The first defect of a shape, in a fixed order of checks. -/
def defect? (s : Shape) : Option Defect :=
  if s.branchFactor < 2 then some .narrowBranch
  else if s.pathLength = 0 then some .noPath
  else if s.leafCap = 0 then some .noLeafRoom
  else if s.levelsPerNode = 0 then some .noLevels
  else if s.syncThreshold = 0 then some .noThreshold
  else if s.leafLimit < s.levelsPerNode then some .deepBranch
  else if growsWithin s.branchFactor 1 s.levelsPerNode then none
  else some .wideBranch

/-- A shape that can be used. -/
def Sound (s : Shape) : Prop := s.defect? = none

instance (s : Shape) : Decidable s.Sound := inferInstanceAs (Decidable (_ = none))

end Shape

end Vantage
