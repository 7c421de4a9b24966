/-
**Faults: what a tree may report instead of doing as it was asked.**

Main definitions:

* `Vantage.Fault` — the faults; a batch that could not be placed wraps the fault that stopped it
  and names the entries that the batch held;
* `Fault.message` — their wording;
* `Fault.dropped`, `Fault.cause` — the entries lost with a batch, and what lies beneath it.
-/

import Vantage.Point
import Vantage.Shape

set_option relaxedAutoImplicit false
set_option autoImplicit false

namespace Vantage

/-- A fault reported by a tree or by reading and writing its snapshot. -/
inductive Fault where
  /-- A leaf was to store more points than it has room for. -/
  | leafOverflow (stored incoming capacity : Nat)
  /-- Some points of a bucket belong to none of its parts. -/
  | incompleteCollation (level bucket unassigned : Nat)
  /-- A branch was given fewer points than it needs vantage points. -/
  | tooFewVantagePoints (needed available : Nat)
  /-- A branch has no place for a child of this index. -/
  | childIndexOutOfRange (index fanout : Nat)
  /-- A batch could not be placed and is dropped; the tree is as it was without it. -/
  | batchRolledBack (source : Fault) (dropped : List Entry)
  /-- The shape cannot be used. -/
  | invalidShape (defect : Shape.Defect)
  /-- Fewer entries could be read than the snapshot announces. -/
  | snapshotTruncated (expected actual : UInt64)
  /-- Reading or writing failed, in the words of the device. -/
  | device (text : String)
deriving DecidableEq, Repr

namespace Fault

/-- The wording of a fault. -/
def message : Fault → String
  | leafOverflow stored incoming capacity =>
    s!"leaf capacity exceeded: {stored} stored + {incoming} incoming > {capacity}"
  | incompleteCollation level bucket unassigned =>
    s!"bucket {bucket} at level {level} not fully collated ({unassigned} points left)"
  | tooFewVantagePoints needed available =>
    s!"internal node needs {needed} vantage points, only {available} available"
  | childIndexOutOfRange index fanout => s!"child index {index} out of range (fanout {fanout})"
  | batchRolledBack source dropped =>
    s!"batch of {dropped.length} points rolled back: " ++ source.message
  | invalidShape defect => "invalid configuration: " ++ defect.message
  | snapshotTruncated expected actual =>
    s!"snapshot truncated: expected {expected.toNat} entries, read {actual.toNat}"
  | device text => text

/-- The entries that were dropped with a batch; none for any other fault. -/
def dropped : Fault → List Entry
  | batchRolledBack _ entries => entries
  | _ => []

/-- The fault beneath any number of dropped batches. -/
def cause : Fault → Fault
  | batchRolledBack source _ => source.cause
  | fault => fault

end Fault

end Vantage
