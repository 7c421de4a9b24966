/-
**The operations of a tree, and runs of them.**

Main definitions:

* `Vantage.Op`, `Vantage.Answer` — the operations, and what they answer;
* `Tree.perform`, `Tree.performAll` — one operation, and a run.
-/

import Vantage.Tree.Flush
import Vantage.Tree.Search

set_option relaxedAutoImplicit false
set_option autoImplicit false

namespace Vantage

/-- An operation on a tree. -/
inductive Op where
  | add (id : Int64) (value : UInt64)
  | addBatch (entries : List Entry)
  | sync
  | delete (id : Int64)
  | clear
  | lookUp (id : Int64)
  | snapshot
  | search (target : UInt64) (radius : Float)

/-- What an operation answers. -/
inductive Answer where
  | done (outcome : Except Fault Unit)
  | point (point : Option Point)
  | entries (snapshot : Snapshot)
  | found (found : Found)

/-- The fault that an answer reports. -/
def Answer.fault? : Answer → Option Fault
  | .done (.error fault) => some fault
  | _ => none

namespace Tree

/-- Performs an operation. -/
def perform (t : Tree) : Op → Except Breach (Tree × Answer)
  | .add id value => do
    let (t, outcome) ← t.add id value
    return (t, .done outcome)
  | .addBatch entries => do
    let (t, outcome) ← t.addBatch entries
    return (t, .done outcome)
  | .sync => do
    let (t, outcome) ← t.flush
    return (t, .done outcome)
  | .delete id => do
    let (t, point) ← t.delete id
    return (t, .point point)
  | .clear => return (← t.clear, .done (.ok ()))
  | .lookUp id => return (t, .point (← t.lookup? id))
  | .snapshot => return (t, .entries (← t.snapshot))
  | .search target radius => return (t, .found (← t.search target radius))

/-- Performs operations in order and collects their answers. -/
def performAll (t : Tree) : List Op → Except Breach (Tree × List Answer)
  | [] => return (t, [])
  | op :: rest => do
    let (t, answer) ← t.perform op
    let (t, answers) ← t.performAll rest
    return (t, answer :: answers)

end Tree

end Vantage
