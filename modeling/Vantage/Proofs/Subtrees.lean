/-
**What a tree of nodes holds.**

The nodes of a tree are listed with every node in front of the nodes below it. Whatever the nodes
contribute, the slots of points or the slots of the nodes themselves, is then what the root
contributes and what its children hold, in the order of their indices.

Main definitions:

* `Subtree.all`, `Subtree.contents` — the nodes of a tree, and what they contribute;
* `Subtree.held`, `Subtree.slots` — the slots of its points and of its nodes;
* `Subtree.looked` — the node of a tree with its points at hand;
* `Subtree.Sound` — every node is sound, and every point below a branch is where it is routed.

Main results:

* `Subtree.contents_eq` — the contents of a tree from those of its children;
* `Subtree.rows_perm_all` — the nodes level by level are the nodes of the tree;
* `Subtree.sound_iff`, `Subtree.Sound.congr` — soundness from the children, and that it is a matter
  of fingerprints alone.
-/

import Vantage.Proofs.NodeIntake
import Vantage.Proofs.SlotStore

set_option relaxedAutoImplicit false
set_option autoImplicit false

namespace Vantage

namespace Subtree

/-! ### The nodes of a tree -/

/-- The nodes of a tree, each in front of the nodes below it. -/
def all : Subtree → List Subtree
  | ⟨slot, .leaf leaf⟩ => [⟨slot, .leaf leaf⟩]
  | ⟨slot, .branch ⟨fanout, vantage, levels, children⟩⟩ =>
    ⟨slot, .branch ⟨fanout, vantage, levels, children⟩⟩ :: allBelow children
where
  /-- The nodes below a node. -/
  allBelow : List (Nat × Subtree) → List Subtree
    | [] => []
    | (_, child) :: rest => child.all ++ allBelow rest

theorem allBelow_eq (children : List (Nat × Subtree)) :
    all.allBelow children = children.flatMap fun x => x.2.all := by
  induction children with
  | nil => rfl
  | cons x rest ih => simp [all.allBelow, ih]

theorem all_eq (t : Subtree) : t.all = t :: t.children.flatMap fun x => x.2.all := by
  obtain ⟨slot, node⟩ := t
  cases node with
  | leaf l => rfl
  | branch b => exact congrArg _ (allBelow_eq b.children)

theorem mem_all_self (t : Subtree) : t ∈ t.all := by
  rw [all_eq]
  exact List.mem_cons_self

theorem mem_all_of_child {t s : Subtree} {x : Nat × Subtree} (hx : x ∈ t.children)
    (hs : s ∈ x.2.all) : s ∈ t.all := by
  rw [all_eq]
  exact List.mem_cons_of_mem _ (List.mem_flatMap.2 ⟨x, hx, hs⟩)

/-- What holds of a tree whenever it holds of its children holds of every tree. -/
theorem induction_on {P : Subtree → Prop}
    (step : ∀ t : Subtree, (∀ x ∈ t.children, P x.2) → P t) (t : Subtree) : P t :=
  recOn_children (fun slot node ih => step ⟨slot, node⟩ fun x hx => ih x.1 x.2 hx) t

/-- The nodes below a node of a tree are nodes of the tree. -/
theorem mem_all_trans {t s u : Subtree} (hs : s ∈ t.all) (hu : u ∈ s.all) : u ∈ t.all := by
  induction t using induction_on with
  | step t ih =>
      rw [all_eq] at hs
      rcases List.mem_cons.1 hs with rfl | hs
      · exact hu
      · obtain ⟨x, hx, hs⟩ := List.mem_flatMap.1 hs
        exact mem_all_of_child hx (ih x hx hs)

/-! ### Contents -/

/-- What the nodes of a tree contribute. -/
def contents {α : Type} (f : Subtree → List α) (t : Subtree) : List α := t.all.flatMap f

theorem contents_eq {α : Type} (f : Subtree → List α) (t : Subtree) :
    t.contents f = f t ++ t.children.flatMap fun x => x.2.contents f := by
  unfold contents
  rw [all_eq, List.flatMap_cons, List.flatMap_assoc]

theorem mem_contents_of_child {α : Type} {f : Subtree → List α} {t : Subtree} {x : Nat × Subtree}
    (hx : x ∈ t.children) {a : α} (ha : a ∈ x.2.contents f) : a ∈ t.contents f := by
  rw [contents_eq]
  exact List.mem_append_right _ (List.mem_flatMap.2 ⟨x, hx, ha⟩)

/-- The points of the node at the root. -/
def own (t : Subtree) : List Nat := t.node.points

/-- The slots of the points that a tree holds. -/
def held (t : Subtree) : List Nat := t.contents own

/-- The slots of the nodes of a tree. -/
def slots (t : Subtree) : List Nat := t.contents fun s => [s.slot]

theorem mem_held_of_own {t : Subtree} {slot : Nat} (h : slot ∈ t.node.points) : slot ∈ t.held := by
  rw [held, contents_eq]
  exact List.mem_append_left _ h

/-- The points of a node of a tree are points of the tree. -/
theorem mem_held {t s : Subtree} (hs : s ∈ t.all) {slot : Nat} (h : slot ∈ s.node.points) :
    slot ∈ t.held :=
  List.mem_flatMap.2 ⟨s, hs, h⟩

/-! ### Rows and height -/

theorem rowsBelow_eq (children : List (Nat × Subtree)) :
    rows.rowsBelow children = children.foldr (fun x rows => mergeRows x.2.rows rows) [] := by
  induction children with
  | nil => rfl
  | cons x rest ih => simp [rows.rowsBelow, ih]

theorem rows_eq (t : Subtree) :
    t.rows = [t] :: t.children.foldr (fun x rows => mergeRows x.2.rows rows) [] := by
  obtain ⟨slot, node⟩ := t
  cases node with
  | leaf l => rfl
  | branch b => exact congrArg _ (rowsBelow_eq b.children)

/-- The nodes level by level are the nodes of the tree. -/
theorem rows_perm_all (t : Subtree) : t.rows.flatten.Perm t.all := by
  induction t using induction_on with
  | step t ih =>
      rw [rows_eq, all_eq, List.flatten_cons]
      refine List.Perm.cons t ?_
      -- below the root, induction on the children whose rows are put side by side
      generalize t.children = children at ih
      induction children with
      | nil => exact .refl _
      | cons x rest ih' =>
          obtain ⟨hx, hrest⟩ := List.forall_mem_cons.1 ih
          rw [List.foldr_cons, List.flatMap_cons]
          exact (flatten_mergeRows_perm _ _).trans (hx.append (ih' hrest))

theorem heightBelow_eq (children : List (Nat × Subtree)) :
    height.heightBelow children = children.foldr (fun x n => max x.2.height n) 0 := by
  induction children with
  | nil => rfl
  | cons x rest ih => simp [height.heightBelow, ih]

/-- A child has fewer levels than its parent. -/
theorem height_lt_of_child {t : Subtree} {x : Nat × Subtree} (hx : x ∈ t.children) :
    x.2.height < t.height := by
  obtain ⟨slot, node⟩ := t
  cases node with
  | leaf l => exact absurd hx (by simp [children, node, Node.children])
  | branch b =>
      change x.2.height < height.heightBelow b.children + 1
      change x ∈ b.children at hx
      rw [heightBelow_eq, Nat.lt_succ_iff]
      generalize b.children = children at hx
      induction children with
      | nil => exact absurd hx (by simp)
      | cons y rest ih =>
          rw [List.foldr_cons]
          rcases List.mem_cons.1 hx with rfl | hx
          · exact Nat.le_max_left _ _
          · exact (ih hx).trans (Nat.le_max_right _ _)

end Subtree

/-! ### Points referred to in another way -/

namespace Node

variable {π ρ κ κ' : Type} {shape : Shape} {d : Metric}

theorem points_mapPoints (f : π → ρ) (node : Node π κ) :
    (node.mapPoints f).points = node.points.map f := by
  cases node with
  | leaf l => simp [mapPoints, points, vantage, stored, Leaf.mapPoints, Function.comp_def]
  | branch b => simp [mapPoints, points, vantage, stored, Branch.mapPoints]

@[simp] theorem children_mapPoints (f : π → ρ) (node : Node π κ) :
    (node.mapPoints f).children = node.children := by
  cases node <;> rfl

/-- A sound node has its children in ascending order of their indices. -/
theorem Sound.ascending {value : π → UInt64} {below : κ → List UInt64} {node : Node π κ}
    (h : node.Sound shape d value below) : Keyed.Ascending node.children := by
  cases node with
  | leaf l => exact .nil
  | branch b => exact Branch.Sound.ascending h

/-- A leaf has no place for a child. -/
@[simp] theorem relink_leaf (l : Leaf π) (links : List (Nat × κ)) :
    (leaf l).relink links = leaf l := by
  induction links with
  | nil => rfl
  | cons x rest ih => exact ih

/-- A branch takes the children for which it has a place. -/
@[simp] theorem relink_branch (b : Branch π κ) (links : List (Nat × κ)) :
    (branch b).relink links = branch { b with
      children := Keyed.setAll (links.filter fun x => x.1 < b.fanout) b.children } := by
  induction links generalizing b with
  | nil => rfl
  | cons x rest ih =>
      have hstep : (branch b).relink (x :: rest) =
          (((branch b).setChild x.1 x.2).toOption.getD (branch b)).relink rest := rfl
      rw [hstep, setChild, Branch.setChild]
      by_cases hx : x.1 < b.fanout
      · rw [if_pos hx, List.filter_cons_of_pos (by simpa using hx)]
        exact ih _
      · rw [if_neg hx, List.filter_cons_of_neg (by simpa using hx)]
        exact ih b

theorem children_relink {node : Node π κ} {links : List (Nat × κ)}
    (h : ∀ x ∈ links, x.1 < node.fanout) :
    (node.relink links).children = Keyed.setAll links node.children := by
  cases node with
  | leaf l =>
      cases links with
      | nil => rfl
      | cons x rest => exact absurd (h x List.mem_cons_self) (Nat.not_lt_zero _)
  | branch b =>
      have hall : links.filter (fun x => x.1 < b.fanout) = links :=
        List.filter_eq_self.2 fun x hx => decide_eq_true (h x hx)
      rw [relink_branch, hall]
      rfl

@[simp] theorem points_relink (node : Node π κ) (links : List (Nat × κ)) :
    (node.relink links).points = node.points := by
  cases node with
  | leaf l => rw [relink_leaf]
  | branch b =>
      rw [relink_branch]
      rfl

@[simp] theorem isLeaf_relink (node : Node π κ) (links : List (Nat × κ)) :
    (node.relink links).isLeaf = node.isLeaf := by
  cases node with
  | leaf l => rw [relink_leaf]
  | branch b =>
      rw [relink_branch]
      rfl

@[simp] theorem isLeaf_mapPoints (f : π → ρ) (node : Node π κ) :
    (node.mapPoints f).isLeaf = node.isLeaf := by
  cases node <;> rfl

theorem mapPoints_relink (f : π → ρ) (node : Node π κ) (links : List (Nat × κ)) :
    (node.relink links).mapPoints f = (node.mapPoints f).relink links := by
  cases node with
  | leaf l => rw [relink_leaf, mapPoints, relink_leaf]
  | branch b =>
      rw [relink_branch, mapPoints, mapPoints, relink_branch]
      rfl

@[simp] theorem fanout_mapPoints (f : π → ρ) (node : Node π κ) :
    (node.mapPoints f).fanout = node.fanout := by
  cases node <;> rfl

/-- A node sends points to places that it has. -/
theorem Routes.lt_fanout {value : π → UInt64} {node : Node π κ} {index : Nat} {x : UInt64}
    (h : node.Routes shape d value index x) : index < node.fanout := by
  cases node with
  | leaf l => exact h.elim
  | branch b => exact h.1

/-- A sound node with other children is sound if these are where they are routed. -/
theorem Sound.relink {value : π → UInt64} {below : κ → List UInt64} {node : Node π κ}
    {links : List (Nat × κ)} (h : node.Sound shape d value below)
    (hnodup : (links.map Prod.fst).Nodup)
    (hrange : ∀ x ∈ links, ∃ v, node.Routes shape d value x.1 v)
    (hlinks : ∀ x ∈ links, ∀ v ∈ below x.2, node.Routes shape d value x.1 v) :
    (node.relink links).Sound shape d value below := by
  cases node with
  | leaf l => rwa [relink_leaf]
  | branch b =>
      obtain ⟨hfanout, hvantage, hlength, hlevels, hasc, hold, hrouted⟩ := h
      have hall : links.filter (fun x => x.1 < b.fanout) = links :=
        List.filter_eq_self.2 fun x hx => by
          obtain ⟨v, hlt, -⟩ := hrange x hx
          exact decide_eq_true hlt
      rw [relink_branch, hall]
      refine ⟨hfanout, hvantage, hlength, hlevels, Keyed.ascending_setAll links hasc, ?_, ?_⟩
      · intro x hx
        rcases (Keyed.mem_setAll hasc hnodup).1 hx with hx | ⟨hx, -⟩
        · obtain ⟨v, hlt, -⟩ := hrange x hx
          rwa [hfanout] at hlt
        · exact hold x hx
      · intro x hx v hv
        rcases (Keyed.mem_setAll hasc hnodup).1 hx with hx | ⟨hx, -⟩
        · exact (hlinks x hx v hv).2
        · exact hrouted x hx v hv

end Node

section fingerprints

variable {π ρ κ : Type} {shape : Shape} {d : Metric} {f : π → ρ} {value : π → UInt64}
  {value' : ρ → UInt64}

/-- The distances of vantage points depend on their fingerprints alone. -/
theorem gaps_map {vantage : List π} (hvalue : ∀ v ∈ vantage, value' (f v) = value v) (x : UInt64) :
    (vantage.map f).map (fun v => d (value' v) x) = vantage.map fun v => d (value v) x := by
  rw [List.map_map]
  exact List.map_congr_left fun v hv => congrArg (fun y => d y x) (hvalue v hv)

theorem Leaf.Sound.mapPoints {l : Leaf π} (h : l.Sound shape d value)
    (hvalue : ∀ p ∈ l.points, value' (f p) = value p) :
    (l.mapPoints f).Sound shape d value' where
  vantage_le := by simpa [Leaf.mapPoints] using h.vantage_le
  stored_le := by simpa [Leaf.mapPoints] using h.stored_le
  full hs := by
    simpa [Leaf.mapPoints] using h.full fun hnil => hs (by simp [Leaf.mapPoints, hnil])
  gaps s hs := by
    obtain ⟨s', hs', rfl⟩ := List.mem_map.1 hs
    have hpoint := hvalue s'.point (List.mem_append_right _ (List.mem_map_of_mem hs'))
    have hvantage : ∀ v ∈ l.vantage, value' (f v) = value v :=
      fun v hv => hvalue v (List.mem_append_left _ hv)
    refine (h.gaps s' hs').trans ?_
    rw [← gaps_map hvantage, ← hpoint]
    rfl

/-- Routing is a matter of fingerprints alone. -/
theorem Branch.routes_mapPoints {parts index : Nat} {x : UInt64} {b : Branch π κ}
    (hvalue : ∀ p ∈ b.vantage, value' (f p) = value p) :
    (b.mapPoints f).Routes d parts value' index x ↔ b.Routes d parts value index x := by
  unfold Branch.Routes
  rw [← gaps_map hvalue]
  rfl

end fingerprints

namespace Node

variable {π ρ κ : Type} {shape : Shape} {d : Metric}

/-- Soundness is a matter of fingerprints alone. -/
theorem Sound.mapPoints {f : π → ρ} {value : π → UInt64} {value' : ρ → UInt64}
    {below below' : κ → List UInt64} {node : Node π κ} (h : node.Sound shape d value below)
    (hvalue : ∀ p ∈ node.points, value' (f p) = value p)
    (hbelow : ∀ x ∈ node.children, ∀ v ∈ below' x.2, v ∈ below x.2) :
    (node.mapPoints f).Sound shape d value' below' := by
  cases node with
  | leaf l =>
      obtain ⟨hl, hne⟩ := h
      have hpoints : (l.mapPoints f).points = l.points.map f :=
        points_mapPoints f (Node.leaf l : Node π κ)
      refine ⟨hl.mapPoints hvalue, ?_⟩
      rw [hpoints]
      exact fun hnil => hne (List.map_eq_nil_iff.1 hnil)
  | branch b =>
      obtain ⟨hfanout, hvantage, hlength, hlevels, hasc, hrange, hrouted⟩ := h
      refine ⟨hfanout, ?_, hlength, hlevels, hasc, hrange, fun x hx v hv => ?_⟩
      · simpa [Branch.mapPoints] using hvantage
      · rw [Branch.routes_mapPoints fun w hw => hvalue w (by rwa [Branch.node_points])]
        exact hrouted x hx v (hbelow x hx v hv)

/-- Looking up the points of a node succeeds when their slots are occupied. -/
theorem lookUp_eq {points : Slots Point} {node : Node Nat κ}
    (h : ∀ slot ∈ node.points, points.Occupied slot) :
    node.lookUp points = .ok (node.mapPoints points.heldAt) := by
  cases node with
  | leaf l =>
      have hvantage := points.holdAll_eq fun slot hs => h slot (List.mem_append_left _ hs)
      have hstored := points.holdAll_eq fun slot hs => h slot (List.mem_append_right _ hs)
      have hzip : ∀ stored : List (Stored Nat),
          List.zipWith (fun h s => ⟨h, s.gaps⟩)
              ((stored.map Stored.point).map points.heldAt) stored =
            stored.map fun s => (⟨points.heldAt s.point, s.gaps⟩ : Stored Held) := fun stored => by
        induction stored with
        | nil => rfl
        | cons s rest ih => simpa using ih
      simp only [Node.vantage, Node.stored] at hvantage hstored
      simp only [lookUp, Leaf.lookUp, hvantage, hstored, ok_bind, pure_eq_ok, hzip]
      rfl
  | branch b =>
      have hvantage := points.holdAll_eq fun slot hs => h slot (List.mem_append_left _ hs)
      simp only [Node.vantage] at hvantage
      simp only [lookUp, Branch.lookUp, hvantage, ok_bind, pure_eq_ok]
      rfl

/-- What is looked up depends on the slots of the node alone. -/
theorem lookUp_congr {points points' : Slots Point} {node : Node Nat κ}
    (h : ∀ slot ∈ node.points, points'.get? slot = points.get? slot) :
    node.lookUp points' = node.lookUp points := by
  cases node with
  | leaf l =>
      have hvantage := Slots.holdAll_congr fun slot hs => h slot (List.mem_append_left _ hs)
      have hstored := Slots.holdAll_congr fun slot hs => h slot (List.mem_append_right _ hs)
      simp only [Node.vantage, Node.stored] at hvantage hstored
      rw [lookUp, lookUp, Leaf.lookUp, Leaf.lookUp, hvantage, hstored]
  | branch b =>
      have hvantage := Slots.holdAll_congr fun slot hs => h slot (List.mem_append_left _ hs)
      simp only [Node.vantage] at hvantage
      rw [lookUp, lookUp, Branch.lookUp, Branch.lookUp, hvantage]

theorem mapPoints_id (node : Node π κ) : node.mapPoints id = node := by
  cases node <;> simp [mapPoints, Leaf.mapPoints, Branch.mapPoints]

end Node

/-- The node of a tree with its points at hand. -/
def Subtree.looked (points : Slots Point) (t : Subtree) : Node Held Subtree :=
  t.node.mapPoints points.heldAt

/-! ### Sound trees -/

namespace Slots

/-- The fingerprint in a slot. -/
def valueAt (points : Slots Point) (slot : Nat) : UInt64 := (points.heldAt slot).value

end Slots

namespace Subtree

variable {shape : Shape} {d : Metric} {points points' : Slots Point}

/-- The fingerprints that a tree holds. -/
def values (points : Slots Point) (t : Subtree) : List UInt64 := t.held.map points.valueAt

/-- Every node of the tree is sound. -/
def Sound (shape : Shape) (d : Metric) (points : Slots Point) (t : Subtree) : Prop :=
  ∀ s ∈ t.all, s.node.Sound shape d points.valueAt (values points)

theorem Sound.node {t : Subtree} (h : t.Sound shape d points) :
    t.node.Sound shape d points.valueAt (values points) :=
  h t t.mem_all_self

theorem Sound.child {t : Subtree} (h : t.Sound shape d points) {x : Nat × Subtree}
    (hx : x ∈ t.children) : x.2.Sound shape d points :=
  fun s hs => h s (mem_all_of_child hx hs)

/-- A tree is sound when its root and its children are. -/
theorem sound_iff {t : Subtree} : t.Sound shape d points ↔
    t.node.Sound shape d points.valueAt (values points) ∧
      ∀ x ∈ t.children, x.2.Sound shape d points := by
  refine ⟨fun h => ⟨h.node, fun x hx => h.child hx⟩, fun ⟨hroot, hbelow⟩ s hs => ?_⟩
  rw [all_eq] at hs
  rcases List.mem_cons.1 hs with rfl | hs
  · exact hroot
  · obtain ⟨x, hx, hs⟩ := List.mem_flatMap.1 hs
    exact hbelow x hx s hs

/-- Points may change in everything but their fingerprints. -/
theorem Sound.congr {t : Subtree} (h : t.Sound shape d points)
    (heq : ∀ slot ∈ t.held, points'.valueAt slot = points.valueAt slot) :
    t.Sound shape d points' := by
  induction t using induction_on with
  | step t ih =>
      obtain ⟨hroot, hbelow⟩ := sound_iff.1 h
      have hchild : ∀ x ∈ t.children, ∀ slot ∈ x.2.held,
          points'.valueAt slot = points.valueAt slot :=
        fun x hx slot hslot => heq slot (mem_contents_of_child hx hslot)
      refine sound_iff.2 ⟨?_, fun x hx => ih x hx (hbelow x hx) (hchild x hx)⟩
      -- the same node, with its slots read in the other store
      have hsame : (t.node.mapPoints id).Sound shape d points'.valueAt (values points') :=
        hroot.mapPoints (fun slot hslot => heq slot (mem_held_of_own hslot))
          fun x hx v hv => by rwa [values, ← List.map_congr_left (hchild x hx)]
      rwa [Node.mapPoints_id] at hsame

end Subtree

end Vantage
