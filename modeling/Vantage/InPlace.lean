/-
**Handing points to a node in place.**

A node that takes points is changed step by step, and what has been done to it stays done when a
fault stops it: vantage points have been drawn, cuts have been frozen, a leaf has been emptied. So
an attempt has an outcome, and leaves a node behind whatever the outcome.

Main definitions:

* `Vantage.Attempt` — the outcome of an attempt, and what it leaves behind;
* `Level.splitAllIn`, `Branch.takeIn`, `Leaf.takeIn`, `Node.takeIn` — handing points to a level, a
  branch, a leaf and a node;
* `Vantage.Absorbed` — what comes out of a node that has taken points;
* `Node.build` — a node for points that have none yet.
-/

import Vantage.Node

set_option relaxedAutoImplicit false
set_option autoImplicit false

namespace Vantage

/-- The outcome of an attempt to change something, and what the attempt leaves behind. -/
structure Attempt (σ α : Type) where
  left : σ
  outcome : Except Fault α

namespace Attempt

variable {σ α β : Type}

/-- Goes on with what is left, unless a fault has stopped the attempt. -/
def andThen (a : Attempt σ α) (next : σ → α → Attempt σ β) : Attempt σ β :=
  match a.outcome with
  | .ok x => next a.left x
  | .error fault => ⟨a.left, .error fault⟩

/-- Makes something else of the outcome. -/
def map (f : α → β) (a : Attempt σ α) : Attempt σ β := ⟨a.left, a.outcome.map f⟩

/-- What is left and the outcome, if there is no fault. -/
def result (a : Attempt σ α) : Except Fault (σ × α) := a.outcome.map fun x => (a.left, x)

end Attempt

/-! ### Branches -/

namespace Level

/-- Freezes the cuts of a bucket, if they are not frozen yet. -/
def freeze (level : Level) (parts bucket : Nat) (gaps : List Float) : Level :=
  { level with frozen := Keyed.set bucket (level.cutsOf parts bucket gaps) level.frozen }

/-- Divides the points of one bucket. The cuts are frozen even if some points belong to no part. -/
def splitIn (d : Metric) (parts : Nat) (vantage : UInt64) (number : Nat) (level : Level)
    (bucket : Nat) (points : List Held) : Attempt Level Buckets where
  left := level.freeze parts bucket (points.map fun p => d vantage p.value)
  outcome := (level.split d parts vantage number bucket points).map Prod.snd

/-- Divides every bucket that holds points, in ascending order, and stops at the first that cannot
be divided. -/
def splitAllIn (d : Metric) (parts : Nat) (vantage : UInt64) (number : Nat) :
    Level → Buckets → Attempt Level Buckets
  | level, [] => ⟨level, .ok []⟩
  | level, (bucket, points) :: rest =>
    (level.splitIn d parts vantage number bucket points).andThen fun level here =>
      (splitAllIn d parts vantage number level rest).map (here ++ ·)

end Level

namespace Branch

variable {κ : Type}

/-- Routes points level by level. The levels below one that cannot divide its points stay as they
are. -/
def collateFromIn (d : Metric) (parts : Nat) :
    Nat → List (Held × Level) → Buckets → Attempt (List Level) Buckets
  | _, [], buckets => ⟨[], .ok buckets⟩
  | number, (vantage, level) :: rest, buckets =>
    let first := level.splitAllIn d parts vantage.value number buckets
    match first.outcome with
    | .error fault => ⟨first.left :: rest.map Prod.snd, .error fault⟩
    | .ok buckets =>
      let others := collateFromIn d parts (number + 1) rest buckets
      ⟨first.left :: others.left, others.outcome⟩

/-- Routes points through all levels of the branch. -/
def collateIn (d : Metric) (parts : Nat) (b : Branch Held κ) (incoming : List Held) :
    Attempt (Branch Held κ) Buckets :=
  let start : Buckets := if incoming.isEmpty then [] else [(0, incoming)]
  let routed := collateFromIn d parts 0 (b.vantage.zip b.levels) start
  ⟨{ b with levels := routed.left }, routed.outcome⟩

/-- Hands points to a branch: it keeps the vantage points that are still missing, and the others are
to go on to its children. -/
def takeIn (shape : Shape) (d : Metric) (b : Branch Held κ) (incoming : List Held) :
    Attempt (Branch Held κ) Buckets :=
  let (rest, drawn) := drawBack (shape.levelsPerNode - b.vantage.length) incoming
  let b := { b with vantage := b.vantage ++ drawn }
  if b.vantage.length < shape.levelsPerNode then
    ⟨b, .error (.tooFewVantagePoints shape.levelsPerNode b.vantage.length)⟩
  else b.collateIn d shape.branchFactor rest

end Branch

/-! ### Leaves and nodes -/

/-- What comes out of a node that has taken points. -/
structure Absorbed (κ : Type) where
  /-- The branch that must take the node's place, if there were too many points for a leaf. -/
  replacement : Option (Branch Held κ) := none
  /-- The points that go on to the children of the node, or of the branch that replaces it. -/
  onward : Buckets := []
  /-- Dead points that have left the node; their slots are to be freed. -/
  dead : List Held := []
  /-- The points that a leaf has stored; they are to be marked as live. -/
  stored : List Held := []

namespace Leaf

variable {κ : Type}

/-- Stores points in a leaf. -/
def storeIn (shape : Shape) (d : Metric) (leaf : Leaf Held) (incoming dead : List Held) :
    Attempt (Leaf Held) (Absorbed κ) :=
  match leaf.store shape d incoming with
  | .ok leaf => ⟨leaf, .ok { dead, stored := incoming }⟩
  | .error fault => ⟨leaf, .error fault⟩

/-- Hands points to a leaf. A leaf that has no room for them is emptied; it is filled again unless
the points are too many even so, and then it stays empty, and a branch takes its place. -/
def takeIn (shape : Shape) (d : Metric) (leaf : Leaf Held) (incoming : List Held) :
    Attempt (Leaf Held) (Absorbed κ) :=
  let (leaf, incoming) := leaf.draw shape incoming
  if leaf.stored.length + incoming.length ≤ shape.leafCap then leaf.storeIn shape d incoming []
  else
    let (live, dead) := leaf.points.partition Held.live
    let incoming := incoming ++ live
    if incoming.length ≤ shape.leafLimit then
      let (leaf, incoming) := draw shape {} incoming
      leaf.storeIn shape d incoming dead
    else
      let promoted := (Branch.new shape).takeIn shape d incoming
      ⟨{}, promoted.outcome.map fun onward =>
        { replacement := some promoted.left, onward, dead }⟩

end Leaf

namespace Node

variable {κ κ' : Type}

/-- Hands points to a node. -/
def takeIn (shape : Shape) (d : Metric) (node : Node Held κ) (incoming : List Held) :
    Attempt (Node Held κ) (Absorbed κ) :=
  match node with
  | .leaf l =>
    let taken := l.takeIn shape d incoming
    ⟨.leaf taken.left, taken.outcome⟩
  | .branch b =>
    let taken := b.takeIn shape d incoming
    ⟨.branch taken.left, taken.outcome.map fun onward => { onward }⟩

/-- Builds a node for points that have none yet: a leaf if they fit into one, a branch otherwise. -/
def build (shape : Shape) (d : Metric) (incoming : List Held) :
    Attempt (Node Held κ) (Absorbed κ) :=
  let empty : Node Held κ :=
    if incoming.length ≤ shape.leafLimit then .leaf {} else .branch (Branch.new shape)
  empty.takeIn shape d incoming

end Node

end Vantage
