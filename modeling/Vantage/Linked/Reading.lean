/-
**Reading a tree off its store of nodes.**

Main definitions:

* `Slots.descend` — visiting nodes level by level;
* `LinkedTree.search` — the placed points within a radius of a target;
* `LinkedTree.rows`, `LinkedTree.rowCounts`, `LinkedTree.nodeCount`, `LinkedTree.estimatedBytes` —
  the nodes level by level, their numbers, and the size of the tree.
-/

import Vantage.Linked.Basic
import Vantage.Tree.Census

set_option relaxedAutoImplicit false
set_option autoImplicit false

namespace Vantage

/-- The children of a node to which a search goes on: those that can hold a point within the
radius. -/
def Node.ahead {κ : Type} (parts : Nat) (d : Metric) (target : UInt64) (radius : Float) :
    Node Held κ → List κ
  | .leaf _ => []
  | .branch b => (b.children.filter fun c =>
      Branch.reaches parts radius b.levels (b.gaps d target) c.1).map Prod.snd

namespace Slots

variable {α : Type}

/-- What is made of the nodes of several slots, and the slots to which they lead. -/
def visitRow (nodes : Slots Cell) (visit : Nat → Cell → Except Breach (α × List Nat)) :
    List Nat → Except Breach (List α × List Nat)
  | [] => return ([], [])
  | slot :: rest => do
    let (here, below) ← visit slot (← nodes.cell slot)
    let (others, below') ← nodes.visitRow visit rest
    return (here :: others, below ++ below')

/-- Visits nodes level by level, and goes on to the slots to which they lead. There is a limit to
the number of levels. -/
def descend (nodes : Slots Cell) (visit : Nat → Cell → Except Breach (α × List Nat)) :
    Nat → List Nat → Except Breach (List (List α))
  | _, [] => return []
  | 0, _ :: _ => throw .endless
  | depth + 1, slot :: rest => do
    let (row, below) ← nodes.visitRow visit (slot :: rest)
    return row :: (← nodes.descend visit depth below)

end Slots

namespace LinkedTree

/-- The live points that nodes hold within a radius of a target. Points that wait for the next
flush are not searched. -/
def search (t : LinkedTree) (target : UInt64) (radius : Float) : Except Breach Found := do
  let visit (_ : Nat) (cell : Cell) : Except Breach (Visit × List Nat) := do
    let node ← cell.lookUp t.points
    return (node.scan t.metric target radius,
      node.ahead t.shape.branchFactor t.metric target radius)
  let rows ← t.nodes.descend visit t.nodes.size t.root.toList
  return .ofVisits rows.flatten

/-- The nodes level by level, each with its slot. -/
def rows (t : LinkedTree) : Except Breach (List (List (Nat × Cell))) :=
  t.nodes.descend (fun slot cell => return ((slot, cell), cell.children.map Prod.snd))
    t.nodes.size t.root.toList

/-- The levels of the tree, from the root down. -/
def rowCounts (t : LinkedTree) : Except Breach (List RowCount) :=
  return (← t.rows).map fun row => RowCount.ofRow (row.map Prod.snd)

/-- The nodes of the tree. -/
def nodeCount (t : LinkedTree) : Except Breach NodeCount := return .ofRows (← t.rowCounts)

/-- The estimated size of the tree in bytes. -/
def estimatedBytes (t : LinkedTree) : Except Breach Nat :=
  return t.shape.estimatedBytes t.size (← t.nodeCount)

end LinkedTree

end Vantage
