/-
**Counting the nodes of a tree, and estimating its size.**

Main definitions:

* `Vantage.RowCount`, `Tree.rowCounts` — leaves, branches and stored points of each level;
* `Vantage.NodeCount`, `Tree.nodeCount` — leaves and branches of the tree;
* `Vantage.Footprint`, `Shape.footprint`, `Tree.estimatedBytes` — the size in bytes.
-/

import Vantage.Tree.Search

set_option relaxedAutoImplicit false
set_option autoImplicit false

namespace Vantage

/-- What one level of a tree consists of. -/
structure RowCount where
  branches : Nat
  leaves : Nat
  /-- The points that leaves of the level store beside their vantage points. -/
  stored : Nat
deriving DecidableEq, Repr

/-- The number of nodes of either kind. -/
structure NodeCount where
  branches : Nat
  leaves : Nat
deriving DecidableEq, Repr

/-- The number of points that a node stores beside its vantage points. -/
def Node.count {π κ : Type} (node : Node π κ) : Nat := node.stored.length

/-- Counts the nodes of one level. -/
def RowCount.ofRow {π κ : Type} (row : List (Node π κ)) : RowCount where
  branches := row.countP fun node => !node.isLeaf
  leaves := row.countP fun node => node.isLeaf
  stored := (row.map Node.count).foldr (· + ·) 0

/-- Counts the nodes of all levels. -/
def NodeCount.ofRows (rows : List RowCount) : NodeCount where
  branches := (rows.map RowCount.branches).foldr (· + ·) 0
  leaves := (rows.map RowCount.leaves).foldr (· + ·) 0

namespace Tree

/-- The levels of the tree, from the root down. -/
def rowCounts (t : Tree) : List RowCount :=
  (t.root.map fun root => root.rows.map fun row => RowCount.ofRow (row.map Subtree.node)).getD []

/-- The nodes of the tree. -/
def nodeCount (t : Tree) : NodeCount := .ofRows t.rowCounts

end Tree

/-! ### Sizes -/

/-- The sizes in bytes from which the size of a tree is estimated. -/
structure Footprint where
  tree : Nat
  point : Nat
  node : Nat
  /-- A reference to a point. -/
  pointRef : Nat
  distance : Nat
  /-- A place for a child of a branch. -/
  childPlace : Nat
  /-- A place for the cuts of a bucket of a branch. -/
  cutsPlace : Nat

namespace Shape

/-- The number of buckets that the levels of a branch divide. -/
def cutPlaces (s : Shape) : Nat := ((List.range s.levelsPerNode).map s.splits).foldr (· + ·) 0

/-- The size of a branch: its places for children and for cuts. -/
def branchBytes (s : Shape) (f : Footprint) : Nat :=
  f.node + f.childPlace * s.fanout + f.cutsPlace * s.cutPlaces

/-- The size of a full leaf: its stored points and their distances to the vantage points. -/
def leafBytes (s : Shape) (f : Footprint) : Nat :=
  f.node + f.pointRef * s.leafCap + f.distance * s.pathLength * s.leafCap

/-- A point takes 24 bytes, a node 504 and a tree 232; references and places for children take 4
and 8, distances 8, and the cuts of a bucket 40. -/
def footprint : Footprint := ⟨232, 24, 504, 4, 8, 8, 40⟩

/-- The estimated size in bytes of a tree with so many entries and nodes: both at their structural
size. -/
def estimatedBytes (s : Shape) (entries : Nat) (count : NodeCount) : Nat :=
  footprint.tree + footprint.point * entries + count.branches * s.branchBytes footprint +
    count.leaves * s.leafBytes footprint

end Shape

/-- The estimated size of the tree in bytes. -/
def Tree.estimatedBytes (t : Tree) : Nat := t.shape.estimatedBytes t.size t.nodeCount

end Vantage
