/-
**Placing a batch of points in a tree, level by level.**

A batch is handed to the root; what a node does not keep goes on to its children in the next
round. Within a round, places are served in the order in which points were sent to them, so that
new nodes take their slots, and a fault stops the batch, in level order. Nothing is freed on the
way: slots given up by nodes and points are listed, and the caller frees them once the whole batch
is placed.

Main definitions:

* `Vantage.Job` — points for a place in the tree, and the subtree that stands there;
* `Vantage.Progress` — what the placement has done to the slots so far;
* `Vantage.Halt` — why a placement stopped;
* `Job.run`, `Vantage.settle` — one place, and all places level by level;
* `Vantage.place` — a whole batch.
-/

import Vantage.Subtree

set_option relaxedAutoImplicit false
set_option autoImplicit false

namespace Vantage

/-- Points for a place in the tree. -/
structure Job where
  /-- What stands at the place, if anything does. -/
  site : Option Subtree
  points : List Held

/-- What a placement has done to the slots so far. -/
structure Progress where
  /-- The slots of nodes; new nodes have taken theirs, and none has been freed. -/
  labels : Slots Unit
  /-- The number of new nodes. -/
  created : Nat := 0
  /-- The slots of leaves that branches have replaced, in order. -/
  discarded : List Nat := []
  /-- The slots of dead points that have left their nodes, in order. -/
  dead : List Nat := []

/-- Why a placement stopped. -/
inductive Halt where
  | breach (breach : Breach)
  /-- A node reported a fault, after the given number of new nodes. -/
  | refused (fault : Fault) (created : Nat)

/-- A node that has taken its points, with the points that go on to its children. -/
structure Stage where
  slot : Nat
  node : Node Nat Subtree
  onward : List (Nat × Job)

/-! ### One place -/

/-- Enters what a node made of its points: a new node takes a slot, and the slot of the node that
it replaces is to be freed; a node that stays keeps its slot. Returns the slot of the node. -/
def Progress.enter (p : Progress) (standing : Option Nat) (intake : Intake Subtree) :
    Nat × Progress :=
  let p := { p with dead := p.dead ++ intake.dead.map Held.slot }
  match standing, intake.fresh with
  | some slot, false => (slot, p)
  | _, _ =>
    let (slot, labels) := p.labels.alloc ()
    (slot, { p with
      labels, created := p.created + 1, discarded := p.discarded ++ standing.toList })

/-- The points that go on, each list with the subtree that stands at its place. -/
def Node.jobs (node : Node Held Subtree) : Buckets → Except Fault (List (Nat × Job))
  | [] => .ok []
  | (index, points) :: rest => do
    let site ← node.child? index
    return (index, ⟨site, points⟩) :: (← node.jobs rest)

/-- Hands points to one place. -/
def Job.run (shape : Shape) (d : Metric) (points : Slots Point) (p : Progress) (job : Job) :
    Except Halt (Stage × Progress) := do
  let intake ← match job.site with
    | some site =>
      let node ← (site.node.lookUp points).mapError .breach
      (node.absorb shape d job.points).mapError (.refused · p.created)
    | none => (Node.create shape d job.points).mapError (.refused · p.created)
  let (slot, p) := p.enter (job.site.map Subtree.slot) intake
  let onward ← (intake.node.jobs intake.onward).mapError (.refused · p.created)
  return (⟨slot, intake.node.mapPoints Held.slot, onward⟩, p)

/-- Hands points to several places, one after another. -/
def Job.runAll (shape : Shape) (d : Metric) (points : Slots Point) :
    Progress → List Job → Except Halt (List Stage × Progress)
  | p, [] => .ok ([], p)
  | p, job :: rest => do
    let (stage, p) ← job.run shape d points p
    let (stages, p) ← runAll shape d points p rest
    return (stage :: stages, p)

/-! ### All places -/

/-- Links children under their indices; one for which the node has no place is passed over. -/
def Node.relink {π κ : Type} (node : Node π κ) (links : List (Nat × κ)) : Node π κ :=
  links.foldl (fun node x => (node.setChild x.1 x.2).toOption.getD node) node

/-- The subtree under a node once the places below it are settled. -/
def Stage.finish (stage : Stage) (below : List Subtree) : Subtree :=
  ⟨stage.slot, stage.node.relink ((stage.onward.map Prod.fst).zip below)⟩

/-- Deals settled subtrees out to the nodes from which their points were sent. -/
def Stage.finishAll : List Stage → List Subtree → List Subtree
  | [], _ => []
  | stage :: rest, below =>
    let n := stage.onward.length
    stage.finish (below.take n) :: finishAll rest (below.drop n)

/-- Serves places, then the places below them, and so on until no points are left on their way;
returns the subtrees that now stand at the places. There is a limit to the number of rounds. -/
def settle (shape : Shape) (d : Metric) (points : Slots Point) :
    Nat → Progress → List Job → Except Halt (List Subtree × Progress)
  | _, p, [] => .ok ([], p)
  | 0, _, _ :: _ => .error (.breach .unsettled)
  | rounds + 1, p, jobs => do
    let (stages, p) ← Job.runAll shape d points p jobs
    let below := stages.flatMap fun stage => stage.onward.map Prod.snd
    let (below, p) ← settle shape d points rounds p below
    return (Stage.finishAll stages below, p)

/-- A number of rounds that is enough for any batch: at each round the points pass a level of the
tree, or a new node keeps one of them at least. -/
def enoughRounds (points : Slots Point) (root : Option Subtree) : Nat :=
  (root.map Subtree.height).getD 0 + points.size + 1

/-- Places a batch: the new root, and what was done to the slots. -/
def place (shape : Shape) (d : Metric) (points : Slots Point) (labels : Slots Unit)
    (root : Option Subtree) (batch : List Held) : Except Halt (Option Subtree × Progress) := do
  let (placed, p) ← settle shape d points (enoughRounds points root) { labels } [⟨root, batch⟩]
  return (placed.head?, p)

end Vantage
