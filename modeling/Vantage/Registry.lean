/-
**The entries of a tree by id, and the points that wait for the next flush.**

A new entry is registered at once, under its id, and its point waits among the arrivals until the
next flush hands it to the nodes. An id that is registered again takes its new entry; the old point
is marked as dead. For each id registered since the last flush the registry remembers which point
the id had before, so that a flush that fails can give it back. Where nodes keep the points that no
longer wait is no matter here.

Main definitions:

* `Vantage.Registry` — ids, points, and what waits;
* `Registry.size`, `Registry.pending`, `Registry.lookup?`, `Registry.snapshot` — the entries;
* `Registry.register`, `Registry.delete` — a new entry for an id, and none;
* `Vantage.Batch`, `Registry.take`, `Registry.withdraw` — what a flush takes out, and taking the
  entries of a batch back.
-/

import Std.Data.TreeMap
import Vantage.Point
import Vantage.Snapshot

set_option relaxedAutoImplicit false
set_option autoImplicit false

namespace Vantage

/-- Entries by id, with the points that nodes hold and those that wait. -/
structure Registry where
  /-- The points that nodes hold and those that wait. -/
  points : Slots Point := .empty
  /-- The slots of the points that wait for the next flush, in order of registration. -/
  arrivals : List Nat := []
  /-- The slot of the live point of each id. -/
  ids : Std.TreeMap Int64 Nat := ∅
  /-- For each id registered since the last flush, the slot of the point that it had before the
  first of these registrations, unless it had none or has been deleted since. -/
  prior : Std.TreeMap Int64 (Option Nat) := ∅

namespace Registry

/-! ### Entries -/

/-- The number of ids that have an entry. -/
def size (r : Registry) : Nat := r.ids.size

/-- No id has an entry. -/
def isEmpty (r : Registry) : Bool := r.ids.isEmpty

/-- The number of points that wait for the next flush; some of them may be dead already. -/
def pending (r : Registry) : Nat := r.arrivals.length

/-- The live point of an id. -/
def lookup? (r : Registry) (id : Int64) : Except Breach (Option Point) :=
  match r.ids[id]? with
  | some slot => return some (← r.points.point slot)
  | none => return none

/-- The entries that the given ids have, where each id comes with the slot of its point. -/
def entriesOf (points : Slots Point) : List (Int64 × Nat) → Except Breach (List Entry)
  | [] => return []
  | (id, slot) :: rest => do
    let p ← points.point slot
    return (id, p.value) :: (← entriesOf points rest)

/-- All entries, in ascending order of the id. -/
def snapshot (r : Registry) : Except Breach Snapshot :=
  return ⟨← entriesOf r.points r.ids.toList⟩

/-! ### New entries and deleted ones -/

/-- Registers an entry: the point that its id had is marked as dead, and the new one waits among
the arrivals. -/
def register (r : Registry) (id : Int64) (value : UInt64) : Except Breach Registry := do
  let old := r.ids[id]?
  let points ← match old with
    | some slot => r.points.setLive slot false
    | none => pure r.points
  let (slot, points) := points.alloc { id, value }
  return {
    points
    ids := r.ids.insert id slot
    prior := r.prior.insertIfNew id old
    arrivals := r.arrivals ++ [slot] }

/-- Registers entries in order. -/
def registerAll (r : Registry) : List Entry → Except Breach Registry
  | [] => return r
  | (id, value) :: rest => do (← r.register id value).registerAll rest

/-- Deletes the entry of an id and returns its point, now dead. The point stays where it is; if a
flush fails later, the id gets nothing back. -/
def delete (r : Registry) (id : Int64) : Except Breach (Registry × Option Point) :=
  match r.ids[id]? with
  | none => return (r, none)
  | some slot => do
    let p ← r.points.point slot
    let points ← r.points.setLive slot false
    return ({ r with
      points
      ids := r.ids.erase id
      prior := if r.prior.contains id then r.prior.insert id none else r.prior },
      some { p with live := false })

end Registry

/-! ### Batches -/

/-- What a flush takes out of a registry. -/
structure Batch where
  /-- The live points that waited, in order of registration. -/
  points : List Held
  /-- What was remembered for the ids. -/
  prior : List (Int64 × Option Nat)

namespace Registry

/-- Takes the waiting points out: the live ones are the batch, and the others are freed. What was
remembered for the ids goes with the batch. -/
def take (r : Registry) : Except Breach (Batch × Registry) := do
  let waiting ← r.points.holdAll r.arrivals
  let (live, dead) := waiting.partition Held.live
  return (⟨live, r.prior.toList⟩, { r with
    prior := ∅
    arrivals := []
    points := r.points.freeAll (dead.map Held.slot) })

/-- Frees a point of a dropped batch, and takes its id back unless a later point has it. -/
def unregister (r : Registry) (h : Held) : Registry :=
  { r with
    points := (r.points.free h.slot).2
    ids := if r.ids[h.point.id]? = some h.slot then r.ids.erase h.point.id else r.ids }

/-- Gives ids their former points back. -/
def reinstate (r : Registry) : List (Int64 × Option Nat) → Except Breach Registry
  | [] => return r
  | (_, none) :: rest => r.reinstate rest
  | (id, some slot) :: rest => do
    if r.ids.contains id then r.reinstate rest
    else
      let points ← r.points.setLive slot true
      reinstate { r with points, ids := r.ids.insert id slot } rest

/-- Takes the entries of a dropped batch back, and gives their ids the points that they had
before. -/
def withdraw (r : Registry) (batch : Batch) : Except Breach Registry :=
  (batch.points.foldl unregister r).reinstate batch.prior

end Registry

end Vantage
