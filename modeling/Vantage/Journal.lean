/-
**Placing a batch in a store of nodes, with a journal that can undo it.**

Nodes lie in a store and refer to their children by slot, and a batch changes them where they lie.
If a node refuses its points, the nodes that were changed before must be as they were. So the
journal keeps a copy of every node from before its first change, and the slots of the nodes that the
batch has made; and no slot is freed until all points are placed, so that the copies refer to
nothing that is gone.

Main definitions:

* `Vantage.Cell` — a node as it lies in the store;
* `Vantage.Journal`, `Vantage.Work` — the undo log of a batch, and what the batch works on;
* `Vantage.Placing` — steps of a placement: the changes made before a fault are not lost with it;
* `Placing.save`, `Placing.mint`, `Placing.link` — the steps that enter something into the journal;
* `Placing.extend`, `Placing.plant`, `Placing.serve` — a place where a node stands, one where none
  does, and one of either kind;
* `Placing.settle`, `Placing.place` — all places, and a whole batch;
* `Work.commit`, `Work.undo` — how a batch ends.
-/

import Std.Data.TreeSet
import Vantage.InPlace

set_option relaxedAutoImplicit false
set_option autoImplicit false

namespace Vantage

/-- A node as it lies in a store, with its points and its children under their slots. -/
abbrev Cell := Node Nat Nat

/-- The node in a slot that should be occupied. -/
def Slots.cell (nodes : Slots Cell) (slot : Nat) : Except Breach Cell :=
  match nodes.get? slot with
  | some c => .ok c
  | none => .error (.danglingNode slot)

/-- Marks the points in several slots as live. -/
def Slots.reviveAll (points : Slots Point) : List Nat → Except Breach (Slots Point)
  | [] => .ok points
  | slot :: rest => do (← points.setLive slot true).reviveAll rest

/-- A place in the tree. -/
inductive Site where
  | root
  | child (parent index : Nat)
deriving DecidableEq

/-- Points on their way to a place. -/
structure Pending where
  site : Site
  points : List Held

/-! ### The journal -/

/-- The undo log of a batch. -/
structure Journal where
  oldRoot : Option Nat
  /-- The slots that need no saving any more: their nodes are saved, or the batch has made them. -/
  touched : Std.TreeSet Nat := ∅
  /-- The nodes that the batch has changed, each as it was before its first change. -/
  saved : List (Nat × Cell) := []
  /-- The slots of the nodes that the batch has made, in order. -/
  created : List Nat := []
  /-- The slots of leaves that branches have replaced, in order. -/
  discarded : List Nat := []
  /-- The slots of dead points that have left their nodes, in order. -/
  dead : List Nat := []

/-- What a batch works on. -/
structure Work where
  points : Slots Point
  nodes : Slots Cell
  root : Option Nat
  journal : Journal

namespace Work

/-- Saves the node of a slot before it is changed for the first time. -/
def save (w : Work) (slot : Nat) : Except Breach Work :=
  if w.journal.touched.contains slot then return w
  else do
    let cell ← w.nodes.cell slot
    return { w with journal := { w.journal with
      touched := w.journal.touched.insert slot
      saved := w.journal.saved ++ [(slot, cell)] } }

/-- Changes the node of a slot. -/
def write (w : Work) (slot : Nat) (cell : Cell) : Work :=
  { w with nodes := (w.nodes.replace slot cell).2 }

/-- Puts a new node into the store, and returns its slot. -/
def mint (w : Work) (cell : Cell) : Nat × Work :=
  let (slot, nodes) := w.nodes.alloc cell
  (slot, { w with
    nodes
    journal := { w.journal with
      touched := w.journal.touched.insert slot
      created := w.journal.created ++ [slot] } })

/-- Makes the node of a slot the root. -/
def reroot (w : Work) (slot : Nat) : Work := { w with root := some slot }

/-- Notes that the node of a slot has been replaced. -/
def discard (w : Work) (slot : Nat) : Work :=
  { w with journal := { w.journal with discarded := w.journal.discarded ++ [slot] } }

/-- Notes that points have left their node. -/
def bury (w : Work) (dead : List Held) : Work :=
  { w with journal := { w.journal with dead := w.journal.dead ++ dead.map Held.slot } }

/-- Marks stored points as live. -/
def revive (w : Work) (stored : List Held) : Except Breach Work :=
  return { w with points := ← w.points.reviveAll (stored.map Held.slot) }

/-! ### The two ends of a batch -/

/-- Frees the slots that were given up: first those of nodes, then those of points. -/
def commit (w : Work) : Work :=
  { w with
    nodes := w.nodes.freeAll w.journal.discarded
    points := w.points.freeAll w.journal.dead }

/-- Puts the saved nodes back, frees the new ones, and makes the old root the root again. -/
def undo (w : Work) : Work :=
  { w with
    nodes := (w.nodes.replaceAll w.journal.saved).freeAll w.journal.created
    root := w.journal.oldRoot }

end Work

/-! ### Placing -/

/-- A step of a placement. It changes what the batch works on, also when it ends in a fault. -/
abbrev Placing := ExceptT Fault (StateT Work (Except Breach))

namespace Placing

/-- Saves a node before it is changed. -/
def save (slot : Nat) : Placing Unit := do set (← (← get).save slot)

/-- Puts a new node into the store. -/
def mint (cell : Cell) : Placing Nat := do
  let (slot, w) := (← get).mint cell
  set w
  return slot

/-- The slot of the node that stands at a place, if there is one. -/
def standing : Site → Placing (Option Nat)
  | .root => return (← get).root
  | .child parent index => do
    let cell ← (← get).nodes.cell parent
    cell.child? index

/-- Puts a node in its place. -/
def link (site : Site) (slot : Nat) : Placing Unit :=
  match site with
  | .root => modify (·.reroot slot)
  | .child parent index => do
    save parent
    let cell ← (← get).nodes.cell parent
    let cell ← cell.setChild index slot
    modify (·.write parent cell)

/-- Hands points to the node of a slot, and leaves in the slot what they have made of it. -/
def absorbAt (shape : Shape) (d : Metric) (slot : Nat) (points : List Held) :
    Placing (Absorbed Nat) := do
  let w ← get
  let node ← (← w.nodes.cell slot).lookUp w.points
  let taken := node.takeIn shape d points
  set (w.write slot (taken.left.mapPoints Held.slot))
  let absorbed ← taken.outcome
  set (← (← get).revive absorbed.stored)
  return absorbed

/-- Builds a node for points. -/
def build (shape : Shape) (d : Metric) (points : List Held) : Placing (Cell × Absorbed Nat) := do
  let built := Node.build shape d points
  let absorbed ← built.outcome
  set (← (← get).revive absorbed.stored)
  return (built.left.mapPoints Held.slot, absorbed)

/-- The points that go on from a node. -/
def sent (slot : Nat) (onward : Buckets) : List Pending :=
  onward.map fun x => ⟨.child slot x.1, x.2⟩

/-- Hands points to the node that stands at a place. A branch that replaces it takes a slot of its
own, and the place. Returns the points that go on from there. -/
def extend (shape : Shape) (d : Metric) (site : Site) (slot : Nat) (points : List Held) :
    Placing (List Pending) := do
  save slot
  let absorbed ← absorbAt shape d slot points
  match absorbed.replacement with
  | some branch =>
    let promoted ← mint ((Node.branch branch).mapPoints Held.slot)
    modify (·.discard slot)
    link site promoted
    modify (·.bury absorbed.dead)
    return sent promoted absorbed.onward
  | none =>
    modify (·.bury absorbed.dead)
    return sent slot absorbed.onward

/-- Puts a new node for points in a place where none stands. Returns the points that go on from
there. -/
def plant (shape : Shape) (d : Metric) (site : Site) (points : List Held) :
    Placing (List Pending) := do
  let (cell, absorbed) ← build shape d points
  let slot ← mint cell
  link site slot
  modify (·.bury absorbed.dead)
  return sent slot absorbed.onward

/-- Hands points to one place; returns those that go on from there. -/
def serve (shape : Shape) (d : Metric) (pending : Pending) : Placing (List Pending) := do
  match ← standing pending.site with
  | some slot => extend shape d pending.site slot pending.points
  | none => plant shape d pending.site pending.points

/-- Hands points to several places, one after another. -/
def serveAll (shape : Shape) (d : Metric) : List Pending → Placing (List Pending)
  | [] => return []
  | pending :: rest => do
    let here ← serve shape d pending
    return here ++ (← serveAll shape d rest)

/-- Serves places, then the places below them, and so on until no points are left on their way.
There is a limit to the number of rounds. -/
def settle (shape : Shape) (d : Metric) : Nat → List Pending → Placing Unit
  | _, [] => return ()
  | 0, _ :: _ => liftM (Except.error Breach.unsettled : Except Breach Unit)
  | rounds + 1, pending :: rest => do
    settle shape d rounds (← serveAll shape d (pending :: rest))

/-- Places a batch. At each round the points pass a level of the tree, which has no more levels than
nodes, or a new node keeps one of them at least. -/
def place (shape : Shape) (d : Metric) (batch : List Held) : Placing Unit := do
  let w ← get
  settle shape d (w.nodes.size + w.points.size + 1) [⟨.root, batch⟩]

end Placing

end Vantage
