/-
**Trees of nodes, each node under its slot number.**

Main definitions:

* `Vantage.Subtree` — a node with its slot and with the nodes below it;
* `Subtree.rows` — the nodes of a tree level by level, the children of a node in the order of
  their indices; `mergeRows` puts two such lists side by side;
* `Subtree.height` — the number of levels;
* `Subtree.search` — the visits of a search, level by level.

Main results:

* `Subtree.recOn_children` — what holds of a node when it holds of its children holds of every
  tree;
* `Subtree.length_rows` — there are as many rows as levels.
-/

import Vantage.Node

set_option relaxedAutoImplicit false
set_option autoImplicit false

namespace Vantage

/-- A node under its slot number, with the subtrees that hang from it as its children. -/
inductive Subtree where
  | mk (slot : Nat) (node : Node Nat Subtree)

/-! ### Rows -/

/-- Puts the rows of two lists side by side, the first list on the left. -/
def mergeRows {α : Type} : List (List α) → List (List α) → List (List α)
  | [], ys => ys
  | xs, [] => xs
  | x :: xs, y :: ys => (x ++ y) :: mergeRows xs ys

section mergeRows

variable {α : Type}

@[simp] theorem mergeRows_nil_left (ys : List (List α)) : mergeRows [] ys = ys := by
  simp [mergeRows]

@[simp] theorem mergeRows_nil_right (xs : List (List α)) : mergeRows xs [] = xs := by
  cases xs <;> simp [mergeRows]

@[simp] theorem mergeRows_cons (x y : List α) (xs ys : List (List α)) :
    mergeRows (x :: xs) (y :: ys) = (x ++ y) :: mergeRows xs ys := by
  simp [mergeRows]

theorem length_mergeRows (xs ys : List (List α)) :
    (mergeRows xs ys).length = max xs.length ys.length := by
  induction xs generalizing ys with
  | nil => simp
  | cons x xs ih => cases ys <;> simp [ih]

/-- Side by side, the rows hold what they held. -/
theorem flatten_mergeRows_perm (xs ys : List (List α)) :
    (mergeRows xs ys).flatten.Perm (xs.flatten ++ ys.flatten) := by
  induction xs generalizing ys with
  | nil => simp
  | cons x xs ih =>
    cases ys with
    | nil => simp
    | cons y ys =>
      simp only [mergeRows_cons, List.flatten_cons, List.append_assoc]
      refine ((ih ys).append_left y).append_left x |>.trans (.append_left x ?_)
      exact List.perm_append_comm_assoc y xs.flatten ys.flatten

end mergeRows

namespace Subtree

/-- The slot of the root. -/
def slot : Subtree → Nat
  | ⟨slot, _⟩ => slot

/-- The node at the root. -/
def node : Subtree → Node Nat Subtree
  | ⟨_, node⟩ => node

/-- The subtrees below the root under their indices, in ascending order. -/
def children (t : Subtree) : List (Nat × Subtree) := t.node.children

/-- What holds of a node whenever it holds of its children holds of every tree. -/
theorem recOn_children {P : Subtree → Prop}
    (step : ∀ slot node, (∀ i c, (i, c) ∈ node.children → P c) → P ⟨slot, node⟩) :
    ∀ t, P t
  | ⟨slot, .leaf leaf⟩ => step slot (.leaf leaf) fun _ _ h => by simp [Node.children] at h
  | ⟨slot, .branch ⟨fanout, vantage, levels, children⟩⟩ =>
    step slot (.branch ⟨fanout, vantage, levels, children⟩) (below children)
where
  below : (children : List (Nat × Subtree)) → ∀ i c, (i, c) ∈ children → P c
    | [], _, _, h => by simp at h
    | (_, d) :: rest, i, c, h => by
      rcases List.mem_cons.1 h with h | h
      · have hd := recOn_children step d
        exact (Prod.mk.inj h).2 ▸ hd
      · exact below rest i c h

/-! ### The nodes of a tree -/

/-- The nodes of a tree level by level, from the root down. -/
def rows : Subtree → List (List Subtree)
  | ⟨slot, .leaf leaf⟩ => [[⟨slot, .leaf leaf⟩]]
  | ⟨slot, .branch ⟨fanout, vantage, levels, children⟩⟩ =>
    [⟨slot, .branch ⟨fanout, vantage, levels, children⟩⟩] :: rowsBelow children
where
  /-- The rows of the children of a node, side by side. -/
  rowsBelow : List (Nat × Subtree) → List (List Subtree)
    | [] => []
    | (_, child) :: rest => mergeRows child.rows (rowsBelow rest)

/-- The number of levels of a tree. -/
def height : Subtree → Nat
  | ⟨_, .leaf _⟩ => 1
  | ⟨_, .branch ⟨_, _, _, children⟩⟩ => heightBelow children + 1
where
  /-- The number of levels below a node. -/
  heightBelow : List (Nat × Subtree) → Nat
    | [] => 0
    | (_, child) :: rest => max child.height (heightBelow rest)

theorem length_rows : ∀ t : Subtree, t.rows.length = t.height
  | ⟨_, .leaf _⟩ => by simp [rows, height]
  | ⟨_, .branch ⟨_, _, _, children⟩⟩ => by simp [rows, height, below children]
where
  below : (children : List (Nat × Subtree)) →
      (rows.rowsBelow children).length = height.heightBelow children
    | [] => rfl
    | (_, child) :: rest => by
      simp [rows.rowsBelow, height.heightBelow, length_mergeRows, length_rows child, below rest]

/-! ### Searching -/

/-- The visits of a search, level by level. From a branch the search goes on to the children that
can hold a point within the radius. -/
def search (points : Slots Point) (parts : Nat) (d : Metric) (target : UInt64) (radius : Float) :
    Subtree → Except Breach (List (List Visit))
  | ⟨_, .leaf leaf⟩ => do
    let leaf ← leaf.lookUp points
    return [[leaf.scan d target radius]]
  | ⟨_, .branch ⟨fanout, vantage, levels, children⟩⟩ => do
    let branch ← Branch.lookUp points ⟨fanout, vantage, levels, children⟩
    let below ← searchBelow (Branch.reaches parts radius levels (branch.gaps d target)) children
    return [branch.scan d target radius] :: below
where
  /-- The visits below a node, among the children whose index passes a test. -/
  searchBelow (reaches : Nat → Bool) :
      List (Nat × Subtree) → Except Breach (List (List Visit))
    | [] => return []
    | (index, child) :: rest => do
      let here ← if reaches index then child.search points parts d target radius else pure []
      return mergeRows here (← searchBelow reaches rest)
termination_by structural t => t

end Subtree

end Vantage
