/-
**Broken promises of the structure itself.**

Everything refers to points and nodes by slot number, and a slot number is good only while its
slot is occupied. A breach is what an operation meets when that promise is broken; it is kept
apart from the faults that an operation may report about its arguments, because no sequence of
operations on a well-formed tree leads to one.

Main definitions:

* `Vantage.Breach` — the kinds of broken promise;
* `Breach.message` — their wording.
-/

set_option relaxedAutoImplicit false
set_option autoImplicit false

namespace Vantage

/-- A promise that the structure failed to keep. -/
inductive Breach where
  /-- The slot should hold a point and holds none. -/
  | danglingPoint (slot : Nat)
  /-- The slot should hold a node and holds none. -/
  | danglingNode (slot : Nat)
  /-- Points were still on their way down after more rounds than the tree can have levels. -/
  | unsettled
  /-- The links from node to node lead further down than there are nodes. -/
  | endless
deriving DecidableEq, Repr

namespace Breach

/-- The wording of a breach; the slot is not named. -/
def message : Breach → String
  | danglingPoint _ => "dangling point handle"
  | danglingNode _ => "dangling node handle"
  | unsettled => "placement does not come to rest"
  | endless => "nodes are linked in a circle"

end Breach

end Vantage
