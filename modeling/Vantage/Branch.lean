/-
**Branches: vantage points that route points to children.**

A branch has one vantage point for each of its levels. Level `n` divides each of its
`branchFactor ^ n` buckets into `branchFactor` buckets of the next level, by the distance of the
points to its vantage point; a bucket of the last level is the place of a child. So the index of a
child, written in base `branchFactor`, lists the parts taken at the levels, the first level in the
most significant place. The cuts of a bucket are computed when it first receives points, and never
change afterwards.

Main definitions:

* `Vantage.Level`, `Vantage.Branch` — a level with its frozen cuts, and a branch; how points and
  children are referred to is left open;
* `Level.split` — dividing one bucket;
* `Branch.collate`, `Branch.absorb` — routing points to children, and handing points to a branch;
* `Branch.reaches` — whether a child can hold a point within a radius;
* `Branch.scan`, `Branch.child?`, `Branch.setChild` — the branch's own part in a search, and its
  children.
-/

import Vantage.Cuts
import Vantage.Draw
import Vantage.Fault
import Vantage.Hit
import Vantage.Keyed
import Vantage.Metric

set_option relaxedAutoImplicit false
set_option autoImplicit false

namespace Vantage

/-- Points collected under the numbers of their buckets, in ascending order. -/
abbrev Buckets := List (Nat × List Held)

/-! ### Levels -/

/-- One level of a branch. -/
structure Level where
  /-- The number of buckets that the level divides. -/
  buckets : Nat
  /-- The cuts of the buckets that have received points. -/
  frozen : List (Nat × List Float) := []

namespace Level

/-- The cuts of a bucket: the frozen ones, or those of the given distances on first use. -/
def cutsOf (level : Level) (parts bucket : Nat) (gaps : List Float) : List Float :=
  (Keyed.get? bucket level.frozen).getD (cuts parts gaps)

/-- Divides the points of one bucket by their distances to the vantage point. Freezes the cuts, and
returns the points under the numbers of the buckets of the next level. A point that belongs to no
part makes the division fail. -/
def split (d : Metric) (parts : Nat) (vantage : UInt64) (number : Nat) (level : Level)
    (bucket : Nat) (points : List Held) : Except Fault (Level × Buckets) :=
  let gaps := points.map fun p => d vantage p.value
  let cuts := level.cutsOf parts bucket gaps
  let placed := points.zip (gaps.map (part? cuts))
  let stray := placed.countP fun x => x.2.isNone
  if stray = 0 then
    .ok ({ level with frozen := Keyed.set bucket cuts level.frozen },
      Keyed.gather (placed.filterMap fun x => x.2.map fun part => (bucket * parts + part, x.1)))
  else .error (.incompleteCollation number bucket stray)

/-- Divides every bucket that holds points, in ascending order, and stops at the first that cannot
be divided. -/
def splitAll (d : Metric) (parts : Nat) (vantage : UInt64) (number : Nat) :
    Level → Buckets → Except Fault (Level × Buckets)
  | level, [] => .ok (level, [])
  | level, (bucket, points) :: rest => do
    let (level, here) ← level.split d parts vantage number bucket points
    let (level, there) ← splitAll d parts vantage number level rest
    return (level, here ++ there)

end Level

/-! ### Branches -/

/-- A branch whose points are referred to by `π` and whose children by `κ`. -/
structure Branch (π κ : Type) where
  /-- The number of places for children. -/
  fanout : Nat
  /-- The vantage points, one for each level. -/
  vantage : List π
  levels : List Level
  /-- The children that are linked, under their indices, in ascending order. -/
  children : List (Nat × κ)

namespace Branch

variable {π ρ κ : Type}

/-- A branch of the given shape without points and children. -/
def new (shape : Shape) : Branch π κ where
  fanout := shape.fanout
  vantage := []
  levels := (List.range shape.levelsPerNode).map fun n => { buckets := shape.splits n }
  children := []

/-- The same branch with its points referred to in another way. -/
def mapPoints (f : π → ρ) (b : Branch π κ) : Branch ρ κ :=
  { b with vantage := b.vantage.map f }

/-- The branch with its points looked up. -/
def lookUp (points : Slots Point) (b : Branch Nat κ) : Except Breach (Branch Held κ) := do
  return { b with vantage := ← points.holdAll b.vantage }

/-! ### Children -/

/-- The child of an index, if one is linked there; the index must be below the fanout. -/
def child? (b : Branch π κ) (index : Nat) : Except Fault (Option κ) :=
  if index < b.fanout then .ok (Keyed.get? index b.children)
  else .error (.childIndexOutOfRange index b.fanout)

/-- Links a child; the index must be below the fanout. -/
def setChild (b : Branch π κ) (index : Nat) (child : κ) : Except Fault (Branch π κ) :=
  if index < b.fanout then .ok { b with children := Keyed.set index child b.children }
  else .error (.childIndexOutOfRange index b.fanout)

/-! ### Taking points -/

/-- Routes points level by level: the levels with the cuts frozen on the way, and the points under
the indices of the children to which they belong. -/
def collateFrom (d : Metric) (parts : Nat) :
    Nat → List (Held × Level) → Buckets → Except Fault (List Level × Buckets)
  | _, [], buckets => .ok ([], buckets)
  | number, (vantage, level) :: rest, buckets => do
    let (level, buckets) ← level.splitAll d parts vantage.value number buckets
    let (levels, buckets) ← collateFrom d parts (number + 1) rest buckets
    return (level :: levels, buckets)

/-- Routes points through all levels of the branch. -/
def collate (d : Metric) (parts : Nat) (b : Branch Held κ) (incoming : List Held) :
    Except Fault (Branch Held κ × Buckets) := do
  let start : Buckets := if incoming.isEmpty then [] else [(0, incoming)]
  let (levels, buckets) ← collateFrom d parts 0 (b.vantage.zip b.levels) start
  return ({ b with levels }, buckets)

/-- Hands points to the branch. Vantage points that are still missing are drawn from the back of
the points; the others are routed to children. -/
def absorb (shape : Shape) (d : Metric) (b : Branch Held κ) (incoming : List Held) :
    Except Fault (Branch Held κ × Buckets) :=
  let (rest, drawn) := drawBack (shape.levelsPerNode - b.vantage.length) incoming
  let vantage := b.vantage ++ drawn
  if vantage.length < shape.levelsPerNode then
    .error (.tooFewVantagePoints shape.levelsPerNode vantage.length)
  else collate d shape.branchFactor { b with vantage } rest

/-! ### Searching -/

/-- The distances of the vantage points to a target. -/
def gaps (d : Metric) (target : UInt64) (b : Branch Held κ) : List Float :=
  b.vantage.map fun v => d v.value target

/-- The branch's own part in a search: its live vantage points within the radius. Every vantage
point is measured, since the distances also choose the children to be searched. -/
def scan (d : Metric) (target : UInt64) (radius : Float) (b : Branch Held κ) : Visit where
  hits := (b.vantage.zip (b.gaps d target)).filterMap fun (v, gap) =>
    if v.live ∧ gap ≤ radius then some ⟨v, gap⟩ else none
  measured := b.vantage.length

/-- Whether the part that an index names at each of the given levels can hold a point within the
radius. `index / parts ^ k`, with `k` further levels to come, is the number of the bucket of the
next level; its last digit names the part, the digits before it the bucket that was divided. -/
def reachesFrom (parts : Nat) (radius : Float) (index : Nat) : List (Level × Float) → Bool
  | [] => true
  | (level, gap) :: rest =>
    let next := index / Nat.pow parts rest.length
    (Keyed.get? (next / parts) level.frozen).any (admits · radius gap (next % parts)) &&
      reachesFrom parts radius index rest

/-- Whether the child of an index can hold a point within the radius of a target whose distances
to the vantage points are given. -/
def reaches (parts : Nat) (radius : Float) (levels : List Level) (gaps : List Float)
    (index : Nat) : Bool :=
  reachesFrom parts radius index (levels.zip gaps)

end Branch

end Vantage
