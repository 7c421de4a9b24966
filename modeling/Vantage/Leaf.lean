/-
**Leaves: points kept with their distances to a few vantage points.**

A leaf has up to `pathLength` vantage points and stores up to `leafCap` further points. With each
stored point it keeps the distances of the vantage points to it, so that a search can pass over
most stored points without measuring them.

Main definitions:

* `Vantage.Stored`, `Vantage.Leaf` — a stored point with its distances, and a leaf; how points are
  referred to is left open;
* `Leaf.absorb`, `Leaf.Outcome` — handing points to a leaf: it takes them in, or is rebuilt
  without its dead points, or turns into a branch;
* `Leaf.scan`, `excludes` — the leaf's part in a search, and the test that passes over a point.
-/

import Vantage.Branch

set_option relaxedAutoImplicit false
set_option autoImplicit false

namespace Vantage

/-- A stored point with the distances of the leaf's vantage points to it, in their order. -/
structure Stored (π : Type) where
  point : π
  gaps : List Float

/-- A leaf whose points are referred to by `π`. -/
structure Leaf (π : Type) where
  vantage : List π := []
  stored : List (Stored π) := []

namespace Leaf

variable {π ρ : Type}

/-- The same leaf with its points referred to in another way. -/
def mapPoints (f : π → ρ) (leaf : Leaf π) : Leaf ρ where
  vantage := leaf.vantage.map f
  stored := leaf.stored.map fun s => ⟨f s.point, s.gaps⟩

/-- The points of the leaf, vantage points first. -/
def points (leaf : Leaf π) : List π := leaf.vantage ++ leaf.stored.map Stored.point

/-- The leaf with its points looked up. -/
def lookUp (points : Slots Point) (leaf : Leaf Nat) : Except Breach (Leaf Held) := do
  let vantage ← points.holdAll leaf.vantage
  let stored ← points.holdAll (leaf.stored.map Stored.point)
  return ⟨vantage, List.zipWith (fun h s => ⟨h, s.gaps⟩) stored leaf.stored⟩

/-! ### Taking points -/

/-- A point to be stored, with the distances of the given vantage points to it. -/
def measure (d : Metric) (vantage : List Held) (p : Held) : Stored Held :=
  ⟨p, vantage.map fun v => d v.value p.value⟩

/-- Stores points beside those already stored, if there is room. -/
def store (shape : Shape) (d : Metric) (leaf : Leaf Held) (incoming : List Held) :
    Except Fault (Leaf Held) :=
  if leaf.stored.length + incoming.length ≤ shape.leafCap then
    .ok { leaf with stored := leaf.stored ++ incoming.map (measure d leaf.vantage) }
  else .error (.leafOverflow leaf.stored.length incoming.length shape.leafCap)

/-- Draws vantage points that are still missing from the back of the points. -/
def draw (shape : Shape) (leaf : Leaf Held) (incoming : List Held) : Leaf Held × List Held :=
  let (rest, drawn) := drawBack (shape.pathLength - leaf.vantage.length) incoming
  ({ leaf with vantage := leaf.vantage ++ drawn }, rest)

/-- What becomes of a leaf that is handed points. -/
inductive Outcome (κ : Type) where
  /-- The points were added, and all else is as before. -/
  | extended (leaf : Leaf Held)
  /-- The leaf was built anew from its live points and the new ones; `dead` has left it. -/
  | rebuilt (leaf : Leaf Held) (dead : List Held)
  /-- There were too many points for a leaf; a branch takes its place and `onward` goes to the
  branch's children. -/
  | promoted (branch : Branch Held κ) (onward : Buckets) (dead : List Held)

/-- Hands points to a leaf. Vantage points that are still missing are drawn from the back of the
points. If the others find no room, the leaf gives up all its points; the dead ones are dropped,
and the new points followed by the live ones are placed in a leaf or, if they are too many, in a
branch. -/
def absorb {κ : Type} (shape : Shape) (d : Metric) (leaf : Leaf Held) (incoming : List Held) :
    Except Fault (Outcome κ) :=
  let (leaf, incoming) := leaf.draw shape incoming
  if leaf.stored.length + incoming.length ≤ shape.leafCap then do
    return .extended (← leaf.store shape d incoming)
  else
    let (live, dead) := leaf.points.partition Held.live
    let incoming := incoming ++ live
    if incoming.length ≤ shape.leafLimit then do
      let (leaf, incoming) := draw shape {} incoming
      return .rebuilt (← leaf.store shape d incoming) dead
    else do
      let (branch, onward) ← (Branch.new shape).absorb shape d incoming
      return .promoted branch onward dead

/-! ### Searching -/

end Leaf

/-- Whether some vantage point shows that a stored point is out of reach: its distance to the
stored point differs by more than the radius from its distance to the target. -/
def excludes (radius : Float) (targetGaps storedGaps : List Float) : Bool :=
  (storedGaps.zip targetGaps).any fun (p, q) => p < q - radius || q + radius < p

namespace Leaf

/-- The leaf's part in a search: its live vantage points within the radius, then its live stored
points within the radius. Stored points that the kept distances exclude are not measured. -/
def scan (d : Metric) (target : UInt64) (radius : Float) (leaf : Leaf Held) : Visit :=
  let gaps := leaf.vantage.map fun v => d v.value target
  let near := (leaf.vantage.zip gaps).filterMap fun (v, gap) =>
    if v.live ∧ gap ≤ radius then some ⟨v, gap⟩ else none
  let unexcluded := leaf.stored.filter fun s => s.point.live && !excludes radius gaps s.gaps
  let found := unexcluded.filterMap fun s =>
    let gap := d s.point.value target
    if gap ≤ radius then some ⟨s.point, gap⟩ else none
  ⟨near ++ found, leaf.vantage.length + unexcluded.length⟩

end Leaf

end Vantage
