/-
**What is read off a store of nodes is what the tree holds.**

A store is read level by level: the nodes of a row are looked up under their slots, and lead to the
slots of the next row. Where trees are laid out in the store these are the rows of the trees, put
side by side. A search, a census and the giving up of all nodes go through a store in this way.

Main definitions:

* `LinkedTree.Shows` — a linked tree has the entries and the nodes of a tree of values.

Main results:

* `Slots.descend_eq` — **visiting a store is visiting the trees laid out in it**;
* `LinkedTree.Shows.search_eq` — searches find the same at the same cost;
* `LinkedTree.Shows.rows_eq`, `LinkedTree.Shows.estimatedBytes_eq` — the rows, and what is counted;
* `LinkedTree.exists_release`, `LinkedTree.Shows.exists_drain`, `LinkedTree.Shows.clear_eq` —
  **giving up all nodes**.
-/

import Vantage.Linked.Reading
import Vantage.Proofs.LinkedNodes
import Vantage.Proofs.Rounds

set_option relaxedAutoImplicit false
set_option autoImplicit false

namespace Vantage

/-! ### Visiting a store -/

namespace Slots

variable {α : Type} {nodes : Slots Cell} {visit : Nat → Cell → Except Breach (α × List Nat)}
  {own : Subtree → α} {ahead : Subtree → List Subtree}

theorem visitRow_eq {ts : List Subtree} (hshows : ∀ t ∈ ts, nodes.Shows t)
    (hvisit : ∀ t ∈ ts, visit t.slot t.cell = .ok (own t, (ahead t).map Subtree.slot)) :
    nodes.visitRow visit (ts.map Subtree.slot) =
      .ok (ts.map own, (ts.flatMap ahead).map Subtree.slot) := by
  induction ts with
  | nil => rfl
  | cons t ts ih =>
      obtain ⟨ht, hts⟩ := List.forall_mem_cons.1 hshows
      obtain ⟨hvisit₁, hvisits⟩ := List.forall_mem_cons.1 hvisit
      rw [List.map_cons, visitRow, cell_eq_ok_iff.2 ht.root, ok_bind, hvisit₁, ok_bind]
      simp only [ih hts hvisits, ok_bind, List.flatMap_cons, List.map_append]
      rfl

/-- **Visiting a store is visiting the trees laid out in it**, if there are enough levels to go. -/
theorem descend_eq {rows : Subtree → List (List α)} {depth : Nat} {ts : List Subtree}
    (hahead : ∀ t, ∀ s ∈ ahead t, ∃ x ∈ t.children, x.2 = s)
    (hshows : ∀ t ∈ ts, nodes.Shows t) (hdepth : ∀ t ∈ ts, t.height ≤ depth)
    (hrows : ∀ t ∈ ts, ∀ s ∈ t.all, rows s = [own s] :: Subtree.forest rows (ahead s))
    (hvisit : ∀ t ∈ ts, ∀ s ∈ t.all, visit s.slot s.cell =
      .ok (own s, (ahead s).map Subtree.slot)) :
    nodes.descend visit depth (ts.map Subtree.slot) = .ok (Subtree.forest rows ts) := by
  -- induction on the levels to go, of which the trees have no more
  induction depth generalizing ts with
  | zero =>
      cases ts with
      | nil => rfl
      | cons t ts => exact absurd (hdepth t List.mem_cons_self) (Nat.not_le.2 t.height_pos)
  | succ depth ih =>
      cases ts with
      | nil => rfl
      | cons t ts =>
          have hrow := visitRow_eq hshows fun s hs => hvisit s hs s s.mem_all_self
          have hbelow : ∀ s ∈ (t :: ts).flatMap ahead, ∃ r ∈ t :: ts, ∃ x ∈ r.children, x.2 = s :=
            fun s hs => by
              obtain ⟨r, hr, hs⟩ := List.mem_flatMap.1 hs
              exact ⟨r, hr, hahead r s hs⟩
          have hrest : nodes.descend visit depth (((t :: ts).flatMap ahead).map Subtree.slot) =
              .ok (Subtree.forest rows ((t :: ts).flatMap ahead)) := by
            refine ih (fun s hs => ?_) (fun s hs => ?_) (fun s hs s' hs' => ?_)
              fun s hs s' hs' => ?_
            all_goals obtain ⟨r, hr, x, hx, rfl⟩ := hbelow s hs
            · exact (hshows r hr).child hx
            · exact Nat.le_of_lt_succ ((Subtree.height_lt_of_child hx).trans_le (hdepth r hr))
            · exact hrows r hr s' (Subtree.mem_all_of_child hx hs')
            · exact hvisit r hr s' (Subtree.mem_all_of_child hx hs')
          rw [Subtree.forest_of_ne_nil (fun s hs => hrows s hs s s.mem_all_self)
            (List.cons_ne_nil _ _)]
          exact bind_eq_ok.2 ⟨_, hrow, bind_eq_ok.2 ⟨_, hrest, rfl⟩⟩

end Slots

/-! ### Nodes with other children -/

namespace Node

variable {κ κ' : Type} (f : κ → κ') (d : Metric) (target : UInt64) (radius : Float)

/-- Points are looked up whatever the children are. -/
theorem lookUp_mapChildren (points : Slots Point) (node : Node Nat κ) :
    (node.mapChildren f).lookUp points = (node.lookUp points).map (mapChildren f) := by
  cases node with
  | leaf l =>
      simp only [mapChildren, lookUp]
      cases l.lookUp points <;> rfl
  | branch b =>
      simp only [mapChildren, lookUp, Branch.mapChildren, Branch.lookUp]
      cases points.holdAll b.vantage <;> rfl

@[simp] theorem scan_mapChildren (node : Node Held κ) :
    (node.mapChildren f).scan d target radius = node.scan d target radius := by
  cases node <;> rfl

@[simp] theorem live_purge_mapChildren (node : Node Held κ) :
    (node.mapChildren f).purge.live = node.purge.live := by
  cases node <;> rfl

@[simp] theorem dead_purge_mapChildren (node : Node Held κ) :
    (node.mapChildren f).purge.dead = node.purge.dead := by
  cases node <;> rfl

@[simp] theorem isLeaf_mapChildren {π : Type} (node : Node π κ) :
    (node.mapChildren f).isLeaf = node.isLeaf := by
  cases node <;> rfl

@[simp] theorem count_mapChildren {π : Type} (node : Node π κ) :
    (node.mapChildren f).count = node.count := by
  cases node <;> rfl

theorem ahead_mapChildren (parts : Nat) (node : Node Held κ) :
    (node.mapChildren f).ahead parts d target radius =
      (node.ahead parts d target radius).map f := by
  cases node with
  | leaf l => rfl
  | branch b =>
      simp only [mapChildren, ahead, Branch.mapChildren, List.filter_map, List.map_map]
      rfl

end Node

namespace Subtree

variable {points : Slots Point} {t : Subtree}

/-- The root as it lies in a store, with its points at hand. -/
theorem lookUp_cell (h : ∀ slot ∈ t.node.points, points.Occupied slot) :
    t.cell.lookUp points = .ok ((t.looked points).mapChildren slot) := by
  rw [cell, Node.lookUp_mapChildren, Node.lookUp_eq h]
  rfl

/-- From the root a search goes on to the children that it opens. -/
theorem ahead_looked (parts : Nat) (d : Metric) (target : UInt64) (radius : Float) :
    (t.looked points).ahead parts d target radius =
      t.entered (goesOn points parts d target radius) := by
  obtain ⟨slot, node⟩ := t
  cases node <;> rfl

end Subtree

namespace LinkedTree

variable {c c' : LinkedTree} {t t' : Tree}

/-! ### The same entries and nodes -/

/-- A linked tree has the entries and the nodes of a tree of values. -/
structure Shows (c : LinkedTree) (t : Tree) : Prop where
  registry : c.toRegistry = t.toRegistry
  shape : c.shape = t.shape
  metric : c.metric = t.metric
  labels : c.nodes.units = t.labels
  top : c.root = t.root.map Subtree.slot
  nodes : ∀ root ∈ t.root, c.nodes.Shows root

/-- Trees without entries are the same. -/
theorem shows_fresh (shape : Shape) (metric : Metric) :
    (fresh shape metric).Shows (.fresh shape metric) where
  registry := rfl
  shape := rfl
  metric := rfl
  labels := Slots.units_empty
  top := rfl
  nodes _ hroot := absurd hroot (by simp [Tree.fresh])

namespace Shows

/-- The store has enough nodes for all levels. -/
theorem height_le (hc : c.Shows t) (h : t.Sound) : ∀ root ∈ t.root, root.height ≤ c.nodes.size := by
  intro root hroot
  have hsize : c.nodes.size = t.labels.size := by rw [← hc.labels, Slots.size_units]
  rw [hsize, h.labels.size, Tree.slots, show t.root = some root from hroot]
  exact root.height_le_length_slots

/-- Visiting the store is visiting the tree. -/
theorem descend_eq {α : Type} {visit : Nat → Cell → Except Breach (α × List Nat)}
    (hc : c.Shows t) (h : t.Sound) (rows : Subtree → List (List α)) (own : Subtree → α)
    (ahead : Subtree → List Subtree) (hahead : ∀ t, ∀ s ∈ ahead t, ∃ x ∈ t.children, x.2 = s)
    (hrows : ∀ root ∈ t.root, ∀ s ∈ root.all, rows s = [own s] :: Subtree.forest rows (ahead s))
    (hvisit : ∀ root ∈ t.root, ∀ s ∈ root.all, visit s.slot s.cell =
      .ok (own s, (ahead s).map Subtree.slot)) :
    c.nodes.descend visit c.nodes.size c.root.toList = .ok (t.root.elim [] rows) := by
  have hforest : Subtree.forest rows t.root.toList = t.root.elim [] rows := by
    cases t.root with
    | none => rfl
    | some root => exact Subtree.forest_singleton rows root
  rw [hc.top, Option.toList_map, ← hforest]
  refine @Slots.descend_eq _ _ _ own _ _ _ _ hahead ?_ ?_ ?_ ?_
  all_goals
    intro root hroot
    rw [Option.mem_toList] at hroot
  · exact hc.nodes root hroot
  · exact hc.height_le h root hroot
  · exact hrows root hroot
  · exact hvisit root hroot

/-- **A search finds the same at the same cost.** -/
theorem search_eq (hc : c.Shows t) (h : t.Sound) (target : UInt64) (radius : Float) :
    c.search target radius = t.search target radius := by
  have hocc : ∀ root ∈ t.root, ∀ s ∈ root.all, ∀ slot ∈ s.held, t.points.Occupied slot := by
    intro root hroot s hs slot hslot
    refine h.held_occupied slot ?_
    rw [Tree.held, show t.root = some root from hroot]
    obtain ⟨r, hr, hslot⟩ := List.mem_flatMap.1 hslot
    exact Subtree.mem_held (Subtree.mem_all_trans hs hr) hslot
  rw [Tree.search_eq h, LinkedTree.search, hc.registry, hc.shape, hc.metric,
    hc.descend_eq h (Subtree.visits t.points t.shape.branchFactor t.metric target radius)
      (fun s => (s.looked t.points).scan t.metric target radius)
      (Subtree.entered
        (Subtree.goesOn t.points t.shape.branchFactor t.metric target radius))]
  · rfl
  · intro s r hr
    obtain ⟨x, hx, rfl⟩ := List.mem_map.1 hr
    exact ⟨x, (List.mem_filter.1 hx).1, rfl⟩
  · exact fun root hroot s hs => Subtree.visits_eq (hocc root hroot s hs) _ _ _ _
  · intro root hroot s hs
    rw [Subtree.lookUp_cell fun slot hslot =>
      hocc root hroot s hs slot (Subtree.mem_held_of_own hslot), ok_bind, Node.scan_mapChildren,
      Node.ahead_mapChildren, Subtree.ahead_looked]
    rfl

/-- The rows of the store are those of the tree. -/
theorem rows_eq (hc : c.Shows t) (h : t.Sound) :
    c.rows =
      .ok (t.root.elim [] fun root => root.rows.map (List.map fun s => (s.slot, s.cell))) := by
  refine hc.descend_eq h (fun s => s.rows.map (List.map fun s => (s.slot, s.cell)))
    (fun s => (s.slot, s.cell)) (fun s => s.children.map Prod.snd) ?_ ?_ ?_
  · intro s r hr
    exact List.mem_map.1 hr
  · intro root hroot s hs
    rw [Subtree.rows_eq_forest, List.map_cons, Subtree.map_forest]
    rfl
  · intro root hroot s hs
    rw [Subtree.cell, Node.children_mapChildren, List.map_map, List.map_map]
    rfl

/-- The levels hold as many nodes of either kind, and as many points. -/
theorem rowCounts_eq (hc : c.Shows t) (h : t.Sound) : c.rowCounts = .ok t.rowCounts := by
  have hcount : ∀ row : List Subtree,
      RowCount.ofRow (row.map Subtree.cell) = RowCount.ofRow (row.map Subtree.node) := by
    intro row
    simp only [RowCount.ofRow, List.countP_map, List.map_map, Function.comp_def, Subtree.cell,
      Node.isLeaf_mapChildren, Node.count_mapChildren]
  rw [LinkedTree.rowCounts, hc.rows_eq h, ok_bind, Tree.rowCounts, pure_eq_ok]
  cases t.root with
  | none => rfl
  | some root =>
      simp only [Option.elim_some, Option.map_some, Option.getD_some, List.map_map]
      refine congrArg _ (List.map_congr_left fun row _ => ?_)
      rw [← hcount]
      simp [Function.comp_def]

theorem nodeCount_eq (hc : c.Shows t) (h : t.Sound) : c.nodeCount = .ok t.nodeCount := by
  rw [LinkedTree.nodeCount, hc.rowCounts_eq h]
  rfl

/-- The estimated size is the same. -/
theorem estimatedBytes_eq (hc : c.Shows t) (h : t.Sound) :
    c.estimatedBytes = .ok t.estimatedBytes := by
  rw [LinkedTree.estimatedBytes, hc.nodeCount_eq h, hc.registry, hc.shape]
  rfl

end Shows

end LinkedTree

/-! ### Giving everything up -/

/-- The nodes of trees are their roots and the nodes of the trees below. -/
theorem Subtree.perm_slots_kids (ts : List Subtree) :
    (ts.flatMap slots).Perm (ts.map slot ++ (kids ts).flatMap slots) := by
  have hslots : ∀ t ∈ ts, t.slots = [t.slot] ++ (t.children.map Prod.snd).flatMap slots := by
    intro t _
    rw [slots, contents_eq, List.flatMap_map]
    rfl
  rw [List.flatMap_congr hslots, kids, List.flatMap_assoc, List.map_eq_flatMap]
  exact (List.flatMap_append_perm _ _ _).symm

theorem Tree.release_append (points : Slots Point) (labels : Slots Unit) (ts ts' : List Subtree) :
    Tree.release points labels (ts ++ ts') =
      Tree.release points labels ts >>= fun r => Tree.release r.1 r.2 ts' := by
  induction ts generalizing points labels with
  | nil => rfl
  | cons t ts ih =>
      rw [List.cons_append, Tree.release, Tree.release]
      rcases labels.free t.slot with ⟨_ | ⟨⟩, labels'⟩
      · exact ih points labels'
      · simp only [ih, bind_assoc]

namespace LinkedTree

variable {c : LinkedTree} {t : Tree} {points points' : Slots Point} {nodes : Slots Cell}
  {labels' : Slots Unit} {ts : List Subtree}

/-- Giving up the nodes of a row is giving up the trees' roots. -/
theorem releaseRow_eq (hcells : ∀ t ∈ ts, nodes.get? t.slot = some t.cell)
    (hnodup : (ts.map Subtree.slot).Nodup)
    (h : Tree.release points nodes.units ts = .ok (points', labels')) :
    releaseRow points nodes (ts.map Subtree.slot) = .ok (points',
      nodes.freeAll (ts.map Subtree.slot), (Subtree.kids ts).map Subtree.slot) ∧
      labels' = (nodes.freeAll (ts.map Subtree.slot)).units := by
  induction ts generalizing points nodes with
  | nil =>
      obtain ⟨rfl, rfl⟩ := Prod.mk.inj (Except.ok.inj h)
      exact ⟨rfl, rfl⟩
  | cons t ts ih =>
      obtain ⟨hcell, hcells⟩ := List.forall_mem_cons.1 hcells
      obtain ⟨hnew, hnodup⟩ := List.nodup_cons.1 hnodup
      have hfree : nodes.free t.slot = (some t.cell, (nodes.free t.slot).2) := by
        rw [Slots.free_of_some hcell]
      have hunits : nodes.units.free t.slot = (some (), (nodes.free t.slot).2.units) := by
        rw [Slots.units_free, hfree]
        rfl
      have hothers : ∀ s ∈ ts, (nodes.free t.slot).2.get? s.slot = some s.cell := by
        intro s hs
        have hne : s.slot ≠ t.slot := fun heq => hnew (heq ▸ List.mem_map_of_mem hs)
        rw [Slots.get?_free_of_ne _ hne, hcells s hs]
      rw [Tree.release, hunits] at h
      obtain ⟨node, hlook, h⟩ := bind_eq_ok.1 h
      have hlooked : t.cell.lookUp points = .ok (node.mapChildren Subtree.slot) := by
        rw [Subtree.cell, Node.lookUp_mapChildren, hlook]
        rfl
      obtain ⟨hrow, rfl⟩ := ih hothers hnodup h
      refine ⟨?_, rfl⟩
      have hkids : (Subtree.kids (t :: ts)).map Subtree.slot =
          t.cell.children.map Prod.snd ++ (Subtree.kids ts).map Subtree.slot := by
        rw [Subtree.kids, List.flatMap_cons, List.map_append, Subtree.cell,
          Node.children_mapChildren, List.map_map, List.map_map]
        rfl
      rw [List.map_cons, releaseRow, hfree, hkids]
      refine bind_eq_ok.2 ⟨_, hlooked, ?_⟩
      simp only [Node.live_purge_mapChildren, Node.dead_purge_mapChildren]
      exact bind_eq_ok.2 ⟨_, hrow, rfl⟩

/-- **Giving up the nodes of a store is giving up the trees laid out in it.** -/
theorem exists_release {depth : Nat} (hshows : ∀ t ∈ ts, nodes.Shows t)
    (hnodup : (ts.flatMap Subtree.slots).Nodup) (hdepth : ∀ t ∈ ts, t.height ≤ depth)
    (h : Tree.release points nodes.units (Subtree.forest Subtree.rows ts).flatten =
      .ok (points', labels')) :
    ∃ nodes', release points nodes depth (ts.map Subtree.slot) = .ok (points', nodes') ∧
      nodes'.units = labels' := by
  -- induction on the levels to go, of which the trees have no more
  induction depth generalizing ts points nodes with
  | zero =>
      cases ts with
      | nil =>
          obtain ⟨rfl, rfl⟩ := Prod.mk.inj (Except.ok.inj h)
          exact ⟨nodes, rfl, rfl⟩
      | cons t ts => exact absurd (hdepth t List.mem_cons_self) (Nat.not_le.2 t.height_pos)
  | succ depth ih =>
      rcases eq_or_ne ts [] with rfl | hne
      · obtain ⟨rfl, rfl⟩ := Prod.mk.inj (Except.ok.inj h)
        exact ⟨nodes, rfl, rfl⟩
      have hslots := List.nodup_append'.1 ((Subtree.perm_slots_kids ts).nodup_iff.1 hnodup)
      obtain ⟨hroots, hbelow, hdisjoint⟩ := hslots
      rw [Subtree.flatten_forest_rows, Tree.release_append] at h
      obtain ⟨⟨points₁, labels₁⟩, hfirst, h⟩ := bind_eq_ok.1 h
      obtain ⟨hrow, rfl⟩ := releaseRow_eq (fun t ht => (hshows t ht).root) hroots hfirst
      have hkids : ∀ s ∈ Subtree.kids ts, ∃ t ∈ ts, ∃ x ∈ t.children, x.2 = s := by
        intro s hs
        obtain ⟨t, ht, hs⟩ := List.mem_flatMap.1 hs
        exact ⟨t, ht, List.mem_map.1 hs⟩
      have hstands : ∀ s ∈ Subtree.kids ts, (nodes.freeAll (ts.map Subtree.slot)).Shows s := by
        intro s hs
        obtain ⟨t, ht, x, hx, rfl⟩ := hkids s hs
        refine ((hshows t ht).child hx).congr fun slot hslot => ?_
        refine Slots.get?_freeAll_of_not_mem _ fun hmem => hdisjoint hmem ?_
        exact List.mem_flatMap.2 ⟨_, hs, hslot⟩
      have hheight : ∀ s ∈ Subtree.kids ts, s.height ≤ depth := by
        intro s hs
        obtain ⟨t, ht, x, hx, rfl⟩ := hkids s hs
        exact Nat.le_of_lt_succ ((Subtree.height_lt_of_child hx).trans_le (hdepth t ht))
      obtain ⟨nodes', hrest, hunits⟩ := ih hstands hbelow hheight h
      refine ⟨nodes', ?_, hunits⟩
      obtain ⟨t, ts, rfl⟩ := List.exists_cons_of_ne_nil hne
      exact bind_eq_ok.2 ⟨_, hrow, hrest⟩

namespace Shows

/-- **Giving everything up** leaves the same points, and the same slots of nodes. -/
theorem exists_drain (hc : c.Shows t) (h : t.Sound) :
    ∃ points nodes t', c.drain = .ok { c with
        points, nodes, root := none, arrivals := [], ids := ∅, prior := ∅ } ∧
      t.drain = .ok t' ∧
      Shows { c with points, nodes, root := none, arrivals := [], ids := ∅, prior := ∅ } t' := by
  obtain ⟨⟨points, labels⟩, hrelease, hdrain⟩ := bind_eq_ok.1 (Tree.drain_eq h)
  have hforest : (t.root.map fun root => root.rows.flatten).getD [] =
      (Subtree.forest Subtree.rows t.root.toList).flatten := by
    cases t.root with
    | none => rfl
    | some root => simp
  have hslots : (t.root.toList.flatMap Subtree.slots).Nodup := by
    have hnodup := h.labels.nodup
    unfold Tree.slots at hnodup
    cases hroot : t.root with
    | none => exact List.nodup_nil
    | some root => simpa [hroot] using hnodup
  rw [hforest, ← hc.labels] at hrelease
  obtain ⟨nodes, hnodes, hunits⟩ := exists_release
    (fun root hroot => hc.nodes root (Option.mem_toList.1 hroot)) hslots
    (fun root hroot => hc.height_le h root (Option.mem_toList.1 hroot)) hrelease
  refine ⟨points.freeAll t.arrivals, nodes, _, ?_, (Tree.drain_eq h).trans hdrain.symm, ?_⟩
  · rw [drain, hc.registry, hc.top, Option.toList_map]
    exact bind_eq_ok.2 ⟨_, hnodes, rfl⟩
  · exact ⟨rfl, hc.shape, hc.metric, hunits, rfl, fun _ hroot => by cases hroot⟩

theorem clear_eq (hc : c.Shows t) (h : t.Sound) : c.clear = .ok (fresh c.shape c.metric) := by
  obtain ⟨points, nodes, t', hdrain, -⟩ := hc.exists_drain h
  rw [clear, hdrain]
  rfl

end Shows

end LinkedTree

end Vantage
