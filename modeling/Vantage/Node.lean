/-
**Nodes: a leaf or a branch, under one interface.**

Main definitions:

* `Vantage.Node` — a node; how its points and its children are referred to is left open;
* `Node.vantage`, `Node.stored`, `Node.points`, `Node.children` — what a node holds;
* `Node.child?`, `Node.setChild` — one child; a leaf has none and takes none;
* `Node.absorb`, `Node.create`, `Vantage.Intake` — handing points to a node, or to no node yet;
* `Node.scan`, `Node.within` — the node's own part in a search;
* `Node.purge` — taking all points out of a node.
-/

import Vantage.Leaf

set_option relaxedAutoImplicit false
set_option autoImplicit false

namespace Vantage

/-- A node whose points are referred to by `π` and whose children by `κ`. -/
inductive Node (π κ : Type) where
  | leaf (leaf : Leaf π)
  | branch (branch : Branch π κ)

namespace Node

variable {π ρ κ : Type}

/-! ### What a node holds -/

def isLeaf : Node π κ → Bool
  | .leaf _ => true
  | .branch _ => false

/-- The vantage points. -/
def vantage : Node π κ → List π
  | .leaf l => l.vantage
  | .branch b => b.vantage

/-- The points that are stored beside the vantage points; a branch stores none. -/
def stored : Node π κ → List π
  | .leaf l => l.stored.map Stored.point
  | .branch _ => []

/-- All points that the node itself holds, in storage order. -/
def points (node : Node π κ) : List π := node.vantage ++ node.stored

/-- The linked children under their indices, in ascending order. -/
def children : Node π κ → List (Nat × κ)
  | .leaf _ => []
  | .branch b => b.children

/-- The child of an index, if one is linked there. A leaf has no child under any index; for a
branch the index must be below its fanout. -/
def child? (node : Node π κ) (index : Nat) : Except Fault (Option κ) :=
  match node with
  | .leaf _ => .ok none
  | .branch b => b.child? index

/-- The number of places for children; a leaf has none. -/
def fanout : Node π κ → Nat
  | .leaf _ => 0
  | .branch b => b.fanout

/-- Links a child under an index below the fanout. -/
def setChild (node : Node π κ) (index : Nat) (child : κ) : Except Fault (Node π κ) :=
  match node with
  | .leaf _ => .error (.childIndexOutOfRange index 0)
  | .branch b => return .branch (← b.setChild index child)

/-- The same node with its points referred to in another way. -/
def mapPoints (f : π → ρ) : Node π κ → Node ρ κ
  | .leaf l => .leaf (l.mapPoints f)
  | .branch b => .branch (b.mapPoints f)

/-- The node with its points looked up. -/
def lookUp (points : Slots Point) : Node Nat κ → Except Breach (Node Held κ)
  | .leaf l => return .leaf (← l.lookUp points)
  | .branch b => return .branch (← b.lookUp points)

end Node

/-! ### Taking points -/

/-- What becomes of points handed to a place in the tree. -/
structure Intake (κ : Type) where
  /-- The node that now stands there. -/
  node : Node Held κ
  /-- The node is a new one, and not the one that stood there. -/
  fresh : Bool
  /-- The points that go on to the node's children. -/
  onward : Buckets := []
  /-- Dead points that have left the node. -/
  dead : List Held := []

namespace Node

variable {κ : Type}

/-- Hands points to a node. -/
def absorb (shape : Shape) (d : Metric) (node : Node Held κ) (incoming : List Held) :
    Except Fault (Intake κ) :=
  match node with
  | .leaf l => do
    match ← l.absorb (κ := κ) shape d incoming with
    | .extended l => return { node := .leaf l, fresh := false }
    | .rebuilt l dead => return { node := .leaf l, fresh := false, dead }
    | .promoted b onward dead => return { node := .branch b, fresh := true, onward, dead }
  | .branch b => do
    let (b, onward) ← b.absorb shape d incoming
    return { node := .branch b, fresh := false, onward }

/-- Makes a node for points that have none yet: a leaf if they fit into one, a branch otherwise. -/
def create (shape : Shape) (d : Metric) (incoming : List Held) : Except Fault (Intake κ) :=
  let empty : Node Held κ :=
    if incoming.length ≤ shape.leafLimit then .leaf {} else .branch (Branch.new shape)
  return { ← empty.absorb shape d incoming with fresh := true }

/-! ### Searching -/

/-- The node's own part in a search; its children are not visited. -/
def scan (d : Metric) (target : UInt64) (radius : Float) : Node Held κ → Visit
  | .leaf l => l.scan d target radius
  | .branch b => b.scan d target radius

/-- The live points that the node itself holds within a radius of a target, in storage order. -/
def within (d : Metric) (target : UInt64) (radius : Float) (node : Node Held κ) : List Held :=
  (node.scan d target radius).hits.map Hit.held

/-! ### Taking all points out -/

/-- The points taken out of a node, and the node without them. -/
structure Purged (κ : Type) where
  live : List Held
  dead : List Held
  node : Node Held κ

/-- Takes all points out of a node and tells the live ones from the dead. The children of a branch
stay linked, and their points stay with them. -/
def purge (node : Node Held κ) : Purged κ :=
  let (live, dead) := node.points.partition Held.live
  match node with
  | .leaf _ => ⟨live, dead, .leaf {}⟩
  | .branch b => ⟨live, dead, .branch { b with vantage := [] }⟩

end Node

end Vantage
