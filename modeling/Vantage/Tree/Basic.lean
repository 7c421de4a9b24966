/-
**The tree: entries by id, and the nodes that hold their points.**

Main definitions:

* `Vantage.Tree`, `Tree.fresh`, `Tree.ofShape` — the tree, and the empty ones;
* `Tree.register`, `Tree.registerAll`, `Tree.delete` — new entries for ids, and none; the nodes stay
  as they are.
-/

import Vantage.Placement
import Vantage.Registry

set_option relaxedAutoImplicit false
set_option autoImplicit false

namespace Vantage

/-- An index of entries by id and by distance. -/
structure Tree extends Registry where
  shape : Shape
  metric : Metric
  /-- The slots in use by nodes. -/
  labels : Slots Unit := .empty
  root : Option Subtree := none

namespace Tree

/-! ### Empty trees -/

/-- A tree without entries. -/
def fresh (shape : Shape) (metric : Metric) : Tree := { shape, metric }

/-- A tree without entries, if the shape can be used. -/
def ofShape (shape : Shape) (metric : Metric) : Except Fault Tree :=
  match shape.defect? with
  | some defect => .error (.invalidShape defect)
  | none => .ok (fresh shape metric)

/-! ### New entries and deleted ones -/

/-- Registers an entry. -/
def register (t : Tree) (id : Int64) (value : UInt64) : Except Breach Tree :=
  return { t with toRegistry := ← t.toRegistry.register id value }

/-- Registers entries in order. -/
def registerAll (t : Tree) (entries : List Entry) : Except Breach Tree :=
  return { t with toRegistry := ← t.toRegistry.registerAll entries }

/-- Deletes the entry of an id and returns its point, now dead. -/
def delete (t : Tree) (id : Int64) : Except Breach (Tree × Option Point) := do
  let (entries, point) ← t.toRegistry.delete id
  return ({ t with toRegistry := entries }, point)

end Tree

end Vantage
