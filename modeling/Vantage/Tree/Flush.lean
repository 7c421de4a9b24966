/-
**Flushing: the waiting points go to the nodes, all of them or none.**

A flush releases the waiting points that died before it, and places the live ones as one batch. If
a node refuses, everything is as it was before these points were registered: the nodes are the old
ones, the points of the batch are freed, and each id has again the point that it had before, unless
it has been deleted since.

Main definitions:

* `Tree.flush` — the flush; it reports the batch that it had to drop;
* `Tree.commit`, `Tree.rollback` — how a flush ends;
* `Tree.add`, `Tree.addBatch`, `Tree.addAll` — new entries, with the flushes that they set off;
* `Tree.drain`, `Tree.clear` — giving up all nodes and points.
-/

import Vantage.Tree.Basic

set_option relaxedAutoImplicit false
set_option autoImplicit false

namespace Vantage

namespace Tree

/-! ### The two ends of a flush -/

/-- Takes over what a placement has built, and frees the slots that were given up: first those of
nodes, then those of points. -/
def commit (t : Tree) (root : Option Subtree) (p : Progress) : Tree :=
  { t with
    root
    labels := p.labels.freeAll p.discarded
    points := t.points.freeAll p.dead }

/-- Drops a batch that could not be placed. The nodes stay as they were; the slots that the
placement had taken for new nodes are given back. -/
def rollback (t : Tree) (batch : Batch) (created : Nat) : Except Breach Tree :=
  return { t with
    labels := t.labels.lend () created
    toRegistry := ← t.toRegistry.withdraw batch }

/-! ### Flushes -/

/-- Hands the waiting points to the nodes, all of them or none. -/
def flush (t : Tree) : Except Breach (Tree × Except Fault Unit) := do
  let (batch, entries) ← t.toRegistry.take
  let t := { t with toRegistry := entries }
  if batch.points.isEmpty then return (t, .ok ())
  else
    match place t.shape t.metric t.points t.labels t.root batch.points with
    | .ok (root, p) => return (t.commit root p, .ok ())
    | .error (.refused fault created) =>
      let t ← t.rollback batch created
      return (t, .error (.batchRolledBack fault (batch.points.map Held.entry)))
    | .error (.breach breach) => throw breach

/-- Registers an entry, and flushes once enough points wait. -/
def add (t : Tree) (id : Int64) (value : UInt64) : Except Breach (Tree × Except Fault Unit) := do
  let t ← t.register id value
  if t.shape.syncThreshold ≤ t.pending then t.flush else return (t, .ok ())

/-- Registers entries and flushes them as one batch. -/
def addBatch (t : Tree) (entries : List Entry) : Except Breach (Tree × Except Fault Unit) := do
  (← t.registerAll entries).flush

/-- Adds entries one by one, and stops at the first fault. -/
def addAll (t : Tree) : List Entry → Except Breach (Tree × Except Fault Unit)
  | [] => return (t, .ok ())
  | (id, value) :: rest => do
    match ← t.add id value with
    | (t, .ok ()) => t.addAll rest
    | (t, .error fault) => return (t, .error fault)

/-- Rebuilds a tree from a snapshot. Vantage points and cuts are chosen afresh, so that the nodes
may differ from those of the tree from which the snapshot was taken. -/
def restore (snapshot : Snapshot) (shape : Shape) (metric : Metric) :
    Except Breach (Except Fault Tree) :=
  match ofShape shape metric with
  | .error fault => return .error fault
  | .ok t => do
    match ← t.addAll snapshot.entries with
    | (_, .error fault) => return .error fault
    | (t, .ok ()) =>
      let (t, answer) ← t.flush
      return answer.map fun _ => t

/-! ### Giving everything up -/

/-- Gives up nodes in the given order: the slot of each, then its points, the live ones first. A
node whose slot is not in use is passed over. -/
def release (points : Slots Point) (labels : Slots Unit) :
    List Subtree → Except Breach (Slots Point × Slots Unit)
  | [] => return (points, labels)
  | t :: rest => do
    match labels.free t.slot with
    | (none, labels) => release points labels rest
    | (some (), labels) =>
      let purged := (← t.node.lookUp points).purge
      release (points.freeAll ((purged.live ++ purged.dead).map Held.slot)) labels rest

/-- Gives up all nodes level by level, and all points, the waiting ones last. -/
def drain (t : Tree) : Except Breach Tree := do
  let nodes := (t.root.map fun root => root.rows.flatten).getD []
  let (points, labels) ← release t.points t.labels nodes
  return { t with
    points := points.freeAll t.arrivals
    labels
    root := none
    arrivals := []
    ids := ∅
    prior := ∅ }

/-- Gives up all nodes and points; slot numbers start over. -/
def clear (t : Tree) : Except Breach Tree := do
  return { ← t.drain with points := .empty, labels := .empty }

end Tree

end Vantage
