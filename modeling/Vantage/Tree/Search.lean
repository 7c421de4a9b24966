/-
**Searching a tree: the placed points within a radius of a target.**

Main definitions:

* `Tree.search`, `Vantage.Found` — the hits, nearest first, and what they cost;
* `Tree.nodes` — the nodes of a tree in level order.
-/

import Vantage.Tree.Basic

set_option relaxedAutoImplicit false
set_option autoImplicit false

namespace Vantage

/-- The outcome of a search. -/
structure Found where
  /-- The hits, nearest first; equally distant ones in level order of their nodes. -/
  hits : List Hit
  /-- The number of distances that were measured. -/
  measured : Nat
  /-- The number of nodes that were visited. -/
  visited : Nat

/-- Adds up the visits to nodes. -/
def Found.ofVisits (visits : List Visit) : Found where
  hits := nearestFirst (visits.flatMap Visit.hits)
  measured := (visits.map Visit.measured).foldr (· + ·) 0
  visited := visits.length

namespace Tree

/-- The nodes in level order. -/
def nodes (t : Tree) : List Subtree := (t.root.map fun root => root.rows.flatten).getD []

/-- The live points that nodes hold within a radius of a target. Points that wait for the next
flush are not searched. -/
def search (t : Tree) (target : UInt64) (radius : Float) : Except Breach Found :=
  match t.root with
  | none => return .ofVisits []
  | some root => do
    let rows ← root.search t.points t.shape.branchFactor t.metric target radius
    return .ofVisits rows.flatten

end Tree

end Vantage
