/-
**The operations of a linked tree, and runs of them.**

Main definitions:

* `LinkedTree.perform`, `LinkedTree.performAll` — one operation, and a run.
-/

import Vantage.Linked.Reading
import Vantage.Tree.Operations

set_option relaxedAutoImplicit false
set_option autoImplicit false

namespace Vantage

namespace LinkedTree

/-- Performs an operation. -/
def perform (t : LinkedTree) : Op → Except Breach (LinkedTree × Answer)
  | .add id value => do
    let (t, outcome) ← t.add id value
    return (t, .done outcome)
  | .addBatch entries => do
    let (t, outcome) ← t.addBatch entries
    return (t, .done outcome)
  | .sync => do
    let (t, outcome) ← t.flush
    return (t, .done outcome)
  | .delete id => do
    let (t, point) ← t.delete id
    return (t, .point point)
  | .clear => return (← t.clear, .done (.ok ()))
  | .lookUp id => return (t, .point (← t.lookup? id))
  | .snapshot => return (t, .entries (← t.snapshot))
  | .search target radius => return (t, .found (← t.search target radius))

/-- Performs operations in order and collects their answers. -/
def performAll (t : LinkedTree) : List Op → Except Breach (LinkedTree × List Answer)
  | [] => return (t, [])
  | op :: rest => do
    let (t, answer) ← t.perform op
    let (t, answers) ← t.performAll rest
    return (t, answer :: answers)

end LinkedTree

end Vantage
