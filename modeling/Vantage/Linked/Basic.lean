/-
**Trees whose nodes lie in a store and are linked by slot.**

The same entries as in a tree of values, but the nodes are changed where they lie, and a flush keeps
a journal by which its changes are undone if a node refuses its points.

Main definitions:

* `Vantage.LinkedTree`, `LinkedTree.fresh`, `LinkedTree.ofShape` — the tree, and the empty ones;
* `LinkedTree.register`, `LinkedTree.registerAll`, `LinkedTree.delete` — new entries, and none;
* `LinkedTree.flush`, `LinkedTree.commit`, `LinkedTree.rollback` — the flush, and how it ends;
* `LinkedTree.add`, `LinkedTree.addBatch`, `LinkedTree.addAll`, `LinkedTree.restore` — new entries,
  with the flushes that they set off;
* `LinkedTree.drain`, `LinkedTree.clear` — giving up all nodes and points.
-/

import Vantage.Journal
import Vantage.Registry

set_option relaxedAutoImplicit false
set_option autoImplicit false

namespace Vantage

/-- An index of entries by id and by distance, over a store of nodes. -/
structure LinkedTree extends Registry where
  shape : Shape
  metric : Metric
  nodes : Slots Cell := .empty
  root : Option Nat := none

namespace LinkedTree

/-! ### Empty trees -/

/-- A tree without entries. -/
def fresh (shape : Shape) (metric : Metric) : LinkedTree := { shape, metric }

/-- A tree without entries, if the shape can be used. -/
def ofShape (shape : Shape) (metric : Metric) : Except Fault LinkedTree :=
  match shape.defect? with
  | some defect => .error (.invalidShape defect)
  | none => .ok (fresh shape metric)

/-! ### New entries and deleted ones -/

/-- Registers an entry. -/
def register (t : LinkedTree) (id : Int64) (value : UInt64) : Except Breach LinkedTree :=
  return { t with toRegistry := ← t.toRegistry.register id value }

/-- Registers entries in order. -/
def registerAll (t : LinkedTree) (entries : List Entry) : Except Breach LinkedTree :=
  return { t with toRegistry := ← t.toRegistry.registerAll entries }

/-- Deletes the entry of an id and returns its point, now dead. -/
def delete (t : LinkedTree) (id : Int64) : Except Breach (LinkedTree × Option Point) := do
  let (entries, point) ← t.toRegistry.delete id
  return ({ t with toRegistry := entries }, point)

/-! ### Flushes -/

/-- What a batch works on when it is placed in the tree; nothing has been entered into the journal
yet. -/
def work (t : LinkedTree) : Work :=
  { points := t.points, nodes := t.nodes, root := t.root, journal := { oldRoot := t.root } }

/-- Takes over what a batch has worked on. -/
def takeOver (t : LinkedTree) (w : Work) : LinkedTree :=
  { t with points := w.points, nodes := w.nodes, root := w.root }

/-- Takes over what a batch has built. -/
def commit (t : LinkedTree) (w : Work) : LinkedTree := t.takeOver w.commit

/-- Drops a batch that could not be placed: its changes to the nodes are undone, and its entries are
taken back. -/
def rollback (t : LinkedTree) (w : Work) (batch : Batch) : Except Breach LinkedTree := do
  let t := t.takeOver w.undo
  return { t with toRegistry := ← t.toRegistry.withdraw batch }

/-- Hands the waiting points to the nodes, all of them or none. -/
def flush (t : LinkedTree) : Except Breach (LinkedTree × Except Fault Unit) := do
  let (batch, entries) ← t.toRegistry.take
  let t := { t with toRegistry := entries }
  if batch.points.isEmpty then return (t, .ok ())
  else
    match ← Placing.place t.shape t.metric batch.points t.work with
    | (.ok (), w) => return (t.commit w, .ok ())
    | (.error fault, w) =>
      let t ← t.rollback w batch
      return (t, .error (.batchRolledBack fault (batch.points.map Held.entry)))

/-- Registers an entry, and flushes once enough points wait. -/
def add (t : LinkedTree) (id : Int64) (value : UInt64) :
    Except Breach (LinkedTree × Except Fault Unit) := do
  let t ← t.register id value
  if t.shape.syncThreshold ≤ t.pending then t.flush else return (t, .ok ())

/-- Registers entries and flushes them as one batch. -/
def addBatch (t : LinkedTree) (entries : List Entry) :
    Except Breach (LinkedTree × Except Fault Unit) := do
  (← t.registerAll entries).flush

/-- Adds entries one by one, and stops at the first fault. -/
def addAll (t : LinkedTree) : List Entry → Except Breach (LinkedTree × Except Fault Unit)
  | [] => return (t, .ok ())
  | (id, value) :: rest => do
    match ← t.add id value with
    | (t, .ok ()) => t.addAll rest
    | (t, .error fault) => return (t, .error fault)

/-- Rebuilds a tree from a snapshot. -/
def restore (snapshot : Snapshot) (shape : Shape) (metric : Metric) :
    Except Breach (Except Fault LinkedTree) :=
  match ofShape shape metric with
  | .error fault => return .error fault
  | .ok t => do
    match ← t.addAll snapshot.entries with
    | (_, .error fault) => return .error fault
    | (t, .ok ()) =>
      let (t, answer) ← t.flush
      return answer.map fun _ => t

/-! ### Giving everything up -/

/-- Gives up the nodes of several slots: the slot of each, then its points, the live ones first.
Returns the stores and the slots of the children. A slot that is not in use is passed over. -/
def releaseRow (points : Slots Point) (nodes : Slots Cell) :
    List Nat → Except Breach (Slots Point × Slots Cell × List Nat)
  | [] => return (points, nodes, [])
  | slot :: rest => do
    match nodes.free slot with
    | (none, nodes) => releaseRow points nodes rest
    | (some cell, nodes) =>
      let purged := (← cell.lookUp points).purge
      let points := points.freeAll ((purged.live ++ purged.dead).map Held.slot)
      let (points, nodes, below) ← releaseRow points nodes rest
      return (points, nodes, cell.children.map Prod.snd ++ below)

/-- Gives up nodes level by level. There is a limit to the number of levels. -/
def release (points : Slots Point) (nodes : Slots Cell) :
    Nat → List Nat → Except Breach (Slots Point × Slots Cell)
  | _, [] => return (points, nodes)
  | 0, _ :: _ => throw .endless
  | depth + 1, slot :: rest => do
    let (points, nodes, below) ← releaseRow points nodes (slot :: rest)
    release points nodes depth below

/-- Gives up all nodes level by level, and all points, the waiting ones last. -/
def drain (t : LinkedTree) : Except Breach LinkedTree := do
  let (points, nodes) ← release t.points t.nodes t.nodes.size t.root.toList
  return { t with
    points := points.freeAll t.arrivals
    nodes
    root := none
    arrivals := []
    ids := ∅
    prior := ∅ }

/-- Gives up all nodes and points; slot numbers start over. -/
def clear (t : LinkedTree) : Except Breach LinkedTree := do
  return { ← t.drain with points := .empty, nodes := .empty }

end LinkedTree

end Vantage
