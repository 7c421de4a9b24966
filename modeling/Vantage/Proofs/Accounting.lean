/-
**Every slot is accounted for, once.**

Nothing leaks, nothing is shared and nothing is lost. The nodes in use are those that paths of child
indices lead to, each by one path; the points in use are those that nodes hold as vantage points or
store, and those that wait, each in one place. Giving everything up therefore frees every slot once
and leaves none behind.

Main definitions:

* `Subtree.follow?`, `Tree.follow?` — the node to which a path of child indices leads;
* `Tree.places` — the slots of points in the places where a tree keeps them;
* `Tree.Accounted` — all slots are accounted for, and nodes are filled as they should be.

Main results:

* `Subtree.follow?_inj` — one path leads to a node when no two nodes share a slot;
* `Job.Served.hasChildren` — a branch that was served has a child;
* `Tree.Reachable.accounted` — **every slot of a reachable tree is accounted for**.
-/

import Vantage.Proofs.Growing
import Vantage.Tree.Census

set_option relaxedAutoImplicit false
set_option autoImplicit false

namespace Vantage

/-! ### Paths -/

namespace Subtree

/-- The subtree to which a path of child indices leads. -/
def follow? : List Nat → Subtree → Option Subtree
  | [], t => some t
  | index :: path, t => (Keyed.get? index t.children).bind (follow? path)

variable {t s s' : Subtree} {path path' : List Nat} {index : Nat}

theorem follow?_cons_eq_some : t.follow? (index :: path) = some s ↔
    ∃ child, Keyed.get? index t.children = some child ∧ child.follow? path = some s :=
  Option.bind_eq_some_iff

/-- A path leads to a node of the tree. -/
theorem mem_all_of_follow? (h : t.follow? path = some s) : s ∈ t.all := by
  induction path generalizing t with
  | nil =>
      obtain rfl := Option.some.inj h
      exact t.mem_all_self
  | cons index path ih =>
      obtain ⟨child, hchild, h⟩ := follow?_cons_eq_some.1 h
      exact mem_all_of_child (Keyed.mem_of_get? hchild) (ih h)

/-- Some path leads to every node of a tree. -/
theorem exists_follow? (hasc : ∀ u ∈ t.all, Keyed.Ascending u.children) (hs : s ∈ t.all) :
    ∃ path, t.follow? path = some s := by
  induction t using induction_on with
  | step t ih =>
      rw [all_eq] at hs
      rcases List.mem_cons.1 hs with rfl | hs
      · exact ⟨[], rfl⟩
      · obtain ⟨x, hx, hs⟩ := List.mem_flatMap.1 hs
        obtain ⟨path, hpath⟩ := ih x hx (fun u hu => hasc u (mem_all_of_child hx hu)) hs
        refine ⟨x.1 :: path, follow?_cons_eq_some.2 ⟨x.2, ?_, hpath⟩⟩
        exact Keyed.get?_of_mem (hasc t t.mem_all_self) hx

theorem slot_mem_slots (hs : s ∈ t.all) : s.slot ∈ t.slots :=
  List.mem_flatMap.2 ⟨s, hs, List.mem_singleton_self _⟩

/-- Slots that are not shared are not shared below a child, nor between two children, nor between
the root and a child. -/
theorem nodup_slots_iff : t.slots.Nodup ↔
    (∀ x ∈ t.children, t.slot ∉ x.2.slots) ∧ (∀ x ∈ t.children, x.2.slots.Nodup) ∧
      t.children.Pairwise fun x y => x.2.slots.Disjoint y.2.slots := by
  have hslots : t.slots = t.slot :: t.children.flatMap fun x => x.2.slots := contents_eq _ t
  rw [hslots, List.nodup_cons, List.nodup_flatMap]
  simp

/-- **One path leads to a node** when no two nodes share a slot. -/
theorem follow?_inj (hnodup : t.slots.Nodup) (h : t.follow? path = some s)
    (h' : t.follow? path' = some s') (hslot : s.slot = s'.slot) : path = path' := by
  induction path generalizing t path' with
  | nil =>
      obtain rfl := Option.some.inj h
      cases path' with
      | nil => rfl
      | cons index path' =>
          obtain ⟨child, hchild, h'⟩ := follow?_cons_eq_some.1 h'
          have hmem := slot_mem_slots (mem_all_of_follow? h')
          rw [← hslot] at hmem
          exact absurd hmem ((nodup_slots_iff.1 hnodup).1 _ (Keyed.mem_of_get? hchild))
  | cons index path ih =>
      obtain ⟨child, hchild, h⟩ := follow?_cons_eq_some.1 h
      have hmem := slot_mem_slots (mem_all_of_follow? h)
      obtain ⟨hroot, hbelow, hpairs⟩ := nodup_slots_iff.1 hnodup
      cases path' with
      | nil =>
          obtain rfl := Option.some.inj h'
          rw [hslot] at hmem
          exact absurd hmem (hroot _ (Keyed.mem_of_get? hchild))
      | cons index' path' =>
          obtain ⟨child', hchild', h'⟩ := follow?_cons_eq_some.1 h'
          rcases eq_or_ne index index' with rfl | hne
          · obtain rfl := Option.some.inj (hchild.symm.trans hchild')
            rw [ih (hbelow _ (Keyed.mem_of_get? hchild)) h h']
          · -- two children of different indices share no slot
            have hmem' := slot_mem_slots (mem_all_of_follow? h')
            have hsymm : Std.Symm fun x y : Nat × Subtree => x.2.slots.Disjoint y.2.slots :=
              ⟨fun _ _ h => h.symm⟩
            have hdisjoint := hpairs.forall (Keyed.mem_of_get? hchild) (Keyed.mem_of_get? hchild')
              fun heq => hne (congrArg Prod.fst heq)
            exact absurd (hslot ▸ hmem') (List.disjoint_left.1 hdisjoint hmem)

end Subtree

/-! ### Branches have children -/

/-- A branch that was served has a child: it sent points on. -/
theorem Job.Served.hasChildren {shape : Shape} {d : Metric} {points : Slots Point} {job : Job}
    {i : Intake Subtree} {stage : Stage} {below : List Subtree}
    (h : job.Served shape d points i stage) (hlength : below.length = stage.onward.length)
    (hbranch : (stage.finish below).node.isLeaf = false) : (stage.finish below).children ≠ [] := by
  have hleaf : i.node.isLeaf = false := by
    have hnode : (stage.finish below).node = stage.node.relink (stage.links below) := rfl
    rwa [hnode, Node.isLeaf_relink, h.yields.node, Node.isLeaf_mapPoints] at hbranch
  have hlinks : stage.links below ≠ [] := by
    have hsends := h.yields.intake.sends hleaf
    intro hnil
    have hkeys := Stage.map_fst_links hlength
    rw [hnil, h.yields.onward, List.map_map] at hkeys
    exact hsends (List.map_eq_nil_iff.1 hkeys.symm)
  obtain ⟨y, hy⟩ := List.exists_mem_of_ne_nil _ hlinks
  exact List.ne_nil_of_mem ((Stage.mem_children_finish h.yields hlength).2 (.inl hy))

/-! ### Counting nodes -/

/-- All nodes of a list of rows are counted. -/
theorem NodeCount.ofRows_eq {π κ : Type} (rows : List (List (Node π κ))) :
    (NodeCount.ofRows (rows.map RowCount.ofRow)).branches +
      (NodeCount.ofRows (rows.map RowCount.ofRow)).leaves = rows.flatten.length := by
  induction rows with
  | nil => rfl
  | cons row rest ih =>
      have hrow := List.length_eq_countP_add_countP (fun node : Node π κ => node.isLeaf) (l := row)
      simp only [Bool.not_eq_true, Bool.decide_eq_false] at hrow
      simp only [NodeCount.ofRows, RowCount.ofRow, List.map_cons, List.foldr_cons,
        List.flatten_cons, List.length_append] at ih ⊢
      omega

/-! ### Reachable trees -/

namespace Tree

variable {t : Tree} {shape : Shape} {metric : Metric}

/-- In a reachable tree every branch has a child. -/
theorem Reachable.hasChildren (h : Reachable shape metric t) {root s : Subtree}
    (hroot : t.root = some root) (hs : s ∈ root.all) (hbranch : s.node.isLeaf = false) :
    s.children ≠ [] := by
  refine h.forall_nodes (Q := fun node => node.isLeaf = false → node.children ≠ []) ?_ root hroot s
    hs hbranch
  intro points job i stage below hserved hlength _ hbranch
  exact hserved.hasChildren hlength hbranch

/-! ### Where slots are kept -/

/-- The node to which a path of child indices leads from the root. -/
def follow? (t : Tree) (path : List Nat) : Option Subtree := t.root.bind (Subtree.follow? path)

/-- The slots of points in the places where the tree keeps them: first those of the vantage points
of all nodes, then those of the points that nodes store, then those of the points that wait. -/
def places (t : Tree) : List Nat :=
  t.nodes.flatMap (fun s => s.node.vantage) ++ t.nodes.flatMap (fun s => s.node.stored) ++
    t.arrivals

theorem perm_places (t : Tree) : t.places.Perm (t.held ++ t.arrivals) :=
  ((List.flatMap_append_perm t.nodes _ _).trans t.perm_held).append_right _

/-- The nodes counted level by level are all nodes. -/
theorem nodeCount_eq (t : Tree) : t.nodeCount.branches + t.nodeCount.leaves = t.nodes.length := by
  unfold nodeCount rowCounts nodes
  cases t.root with
  | none => rfl
  | some root =>
      have hrows := NodeCount.ofRows_eq (root.rows.map fun row => row.map Subtree.node)
      rw [← List.map_flatten, List.length_map, List.map_map] at hrows
      exact hrows

/-- **Every slot is accounted for.** -/
structure Accounted (t : Tree) : Prop where
  /-- The slots of nodes that are in use are those to which a path leads, each by one path. -/
  reached : ∀ slot, t.labels.Occupied slot →
    ∃! path, ∃ s, t.follow? path = some s ∧ s.slot = slot
  inUse : ∀ path s, t.follow? path = some s → t.labels.Occupied s.slot
  /-- The nodes in level order are those to which paths lead. -/
  listed : ∀ s, s ∈ t.nodes ↔ ∃ path, t.follow? path = some s
  /-- A leaf holds a point and has no child. -/
  leaf : ∀ s ∈ t.nodes, s.node.isLeaf = true → s.node.points ≠ [] ∧ s.children = []
  /-- A branch has all its vantage points, stores nothing, and has a child. -/
  branch : ∀ s ∈ t.nodes, s.node.isLeaf = false →
    s.node.vantage.length = t.shape.levelsPerNode ∧ s.node.stored = [] ∧ s.children ≠ []
  /-- The slots of points that are in use are those of the places, each in one place. -/
  kept : t.places.Perm t.points.taken
  size : t.points.size = t.pending + (t.nodes.map fun s => s.node.vantage.length).sum +
    (t.nodes.map fun s => s.node.stored.length).sum
  counted : t.nodeCount.branches + t.nodeCount.leaves = t.labels.taken.length ∧
    t.labels.size = t.labels.taken.length
  /-- Giving everything up frees every node and every point once, and none is left. -/
  drained : t.drain = .ok { t with
      points := t.points.freeAll t.freed
      labels := t.labels.freeAll (t.nodes.map Subtree.slot)
      root := none
      arrivals := []
      ids := ∅
      prior := ∅ } ∧
    t.freed.Perm t.points.taken ∧ (t.nodes.map Subtree.slot).Perm t.labels.taken ∧
    (t.points.freeAll t.freed).isEmpty = true ∧
    (t.labels.freeAll (t.nodes.map Subtree.slot)).isEmpty = true
  cleared : t.clear = .ok (fresh t.shape t.metric)

namespace Sound

variable (h : t.Sound)
include h

/-- A path leads to a node of the tree, and to every node one does. -/
theorem mem_nodes_iff {s : Subtree} : s ∈ t.nodes ↔ ∃ path, t.follow? path = some s := by
  rw [mem_nodes]
  simp only [follow?, Option.bind_eq_some_iff]
  constructor
  · rintro ⟨root, hroot, hs⟩
    obtain ⟨path, hpath⟩ :=
      Subtree.exists_follow? (fun u hu => (h.root root hroot u hu).ascending) hs
    exact ⟨path, root, hroot, hpath⟩
  · rintro ⟨path, root, hroot, hpath⟩
    exact ⟨root, hroot, Subtree.mem_all_of_follow? hpath⟩

/-- Two paths do not lead to the same slot. -/
theorem follow?_inj {path path' : List Nat} {s s' : Subtree} (hpath : t.follow? path = some s)
    (hpath' : t.follow? path' = some s') (hslot : s.slot = s'.slot) : path = path' := by
  have hnodup := h.labels.nodup
  simp only [follow?, Option.bind_eq_some_iff] at hpath hpath'
  obtain ⟨root, hroot, hpath⟩ := hpath
  obtain ⟨root', hroot', hpath'⟩ := hpath'
  obtain rfl := Option.some.inj (hroot.symm.trans hroot')
  rw [slots, hroot] at hnodup
  exact Subtree.follow?_inj hnodup hpath hpath' hslot

theorem occupied_iff_mem_nodes {slot : Nat} :
    t.labels.Occupied slot ↔ slot ∈ t.nodes.map Subtree.slot := by
  rw [h.labels.occupied, t.perm_slots.mem_iff]

theorem size_eq : t.points.size = t.pending +
    (t.nodes.map fun s => s.node.vantage.length).sum +
    (t.nodes.map fun s => s.node.stored.length).sum := by
  have hlength : ∀ f : Subtree → List Nat,
      (t.nodes.flatMap f).length = (t.nodes.map fun s => (f s).length).sum := fun f =>
    List.length_flatMap
  have hplaces := t.perm_places.length_eq
  rw [← h.points.size, places, List.length_append, List.length_append, hlength, hlength] at hplaces
  rw [Registry.pending]
  omega

end Sound

/-- **Every slot of a reachable tree is accounted for**, whatever the metric and whether or not
flushes have failed. -/
theorem Reachable.accounted (h : Reachable shape metric t) :
    t.Accounted ∧ t.shape = shape ∧ t.metric = metric := by
  obtain ⟨hsound, hshape, hmetric⟩ := h.sound
  have hnodes : t.nodes.length = t.labels.size := by
    rw [hsound.labels.size, ← t.perm_slots.length_eq, List.length_map]
  refine ⟨⟨fun slot hslot => ?_, fun path s hpath => ?_, fun s => hsound.mem_nodes_iff,
    fun s hs hleaf => ?_, fun s hs hbranch => ?_, ?_, hsound.size_eq, ⟨?_, ?_⟩,
    ⟨drain_eq hsound, ?_, ?_, ?_, ?_⟩, clear_eq hsound⟩, hshape, hmetric⟩
  · obtain ⟨s, hs, rfl⟩ := List.mem_map.1 (hsound.occupied_iff_mem_nodes.1 hslot)
    obtain ⟨path, hpath⟩ := hsound.mem_nodes_iff.1 hs
    refine ⟨path, ⟨s, hpath, rfl⟩, ?_⟩
    rintro path' ⟨s', hpath', hslot'⟩
    exact hsound.follow?_inj hpath' hpath hslot'
  · rw [hsound.occupied_iff_mem_nodes]
    exact List.mem_map_of_mem (hsound.mem_nodes_iff.2 ⟨path, hpath⟩)
  · obtain ⟨root, hroot, hs⟩ := mem_nodes.1 hs
    have hnode := hsound.root root hroot s hs
    cases hs : s.node with
    | branch b => simp [hs, Node.isLeaf] at hleaf
    | leaf l =>
        rw [hs] at hnode
        refine ⟨hnode.2, ?_⟩
        rw [Subtree.children, hs]
        rfl
  · obtain ⟨root, hroot, hs⟩ := mem_nodes.1 hs
    have hchildren := h.hasChildren hroot hs hbranch
    have hnode := hsound.root root hroot s hs
    cases hs : s.node with
    | leaf l => simp [hs, Node.isLeaf] at hbranch
    | branch b =>
        rw [hs] at hnode
        exact ⟨Branch.Sound.vantage hnode, rfl, hchildren⟩
  · exact t.perm_places.trans hsound.points.perm_taken
  · rw [nodeCount_eq, ← hsound.labels.perm_taken.length_eq, ← t.perm_slots.length_eq,
      List.length_map]
  · rw [hsound.labels.size, hsound.labels.perm_taken.length_eq]
  · exact t.perm_freed.trans hsound.points.perm_taken
  · exact t.perm_slots.trans hsound.labels.perm_taken
  · exact hsound.points.isEmpty_freeAll t.perm_freed
  · exact hsound.labels.isEmpty_freeAll t.perm_slots

/-- A vantage point of a branch is deleted, the tree grows, and a batch that the branch cannot
divide is dropped: every slot is accounted for. -/
theorem accounted_growing :
    ∃ t answers, (fresh .smallest fun a b =>
        if a = 666 ∨ b = 666 then Float.nan else hamming a b).performAll
          [.addBatch [(1, 1), (2, 2), (3, 3)], .delete 3, .addBatch [(4, 4), (5, 6), (6, 5)],
            .addBatch [(7, 9), (8, 666)], .add 9 9] = .ok (t, answers) ∧
      answers.map Answer.fault? = [none, none, none,
        some (.batchRolledBack (.incompleteCollation 0 0 1) [(7, 9), (8, 666)]), none] ∧
      1 < t.nodeCount.branches ∧ 1 < t.nodeCount.leaves ∧ t.Accounted := by
  have hrun : ((fresh .smallest fun a b =>
      if a = 666 ∨ b = 666 then Float.nan else hamming a b).performAll
        [.addBatch [(1, 1), (2, 2), (3, 3)], .delete 3, .addBatch [(4, 4), (5, 6), (6, 5)],
          .addBatch [(7, 9), (8, 666)], .add 9 9]).toOption.any (fun r =>
      decide (r.2.map Answer.fault? = [none, none, none,
          some (.batchRolledBack (.incompleteCollation 0 0 1) [(7, 9), (8, 666)]), none] ∧
        1 < r.1.nodeCount.branches ∧ 1 < r.1.nodeCount.leaves)) = true := by
    decide +kernel
  obtain ⟨t, answers, hall, hrun⟩ := any_performAll.1 hrun
  obtain ⟨hfaults, hbranches, hleaves⟩ := of_decide_eq_true hrun
  exact ⟨t, answers, hall, hfaults, hbranches, hleaves,
    (Reachable.performAll (.fresh Shape.smallest_sound) hall).accounted.1⟩

end Tree

end Vantage
