/-
**The kept distances of a leaf as a table.**

With each stored point a leaf keeps the distances of its vantage points to it. Read across, they are
a table that has a row for each vantage point and a column for each stored point. A leaf never
computes this table as a whole: a vantage point that is drawn brings an empty row, points that are
stored lengthen every row, and a leaf that is built anew starts over with no rows at all. Whatever
the order in which this happens, the table is the one that measuring everything at once would give.

Main definitions:

* `Leaf.row`, `Leaf.table` — the kept distances by rows;
* `Leaf.addRows`, `Leaf.lengthenRows` — how rows are added and how they grow;
* `Leaf.Tabulates` — a leaf within its bounds, with the right table.

Main results:

* `Leaf.table_draw`, `Leaf.table_store`, `Leaf.table_absorb` — **the rows grow as the leaf does**;
* `Leaf.Sound.table_eq` — the table of a sound leaf is the one that is measured at once;
* `Leaf.Sound.excludes_eq` — a search may read the distances of a stored point off the rows;
* `Tree.Reachable.tabulates` — **the leaves of a reachable tree keep the right tables**.
-/

import Vantage.Proofs.Pruning

set_option relaxedAutoImplicit false
set_option autoImplicit false

namespace Vantage

variable {π κ : Type} {shape : Shape} {d : Metric}

namespace Leaf

/-! ### Rows -/

/-- The distances of one vantage point, given by its place among them, to the stored points. -/
def row (leaf : Leaf π) (i : Nat) : List Float := leaf.stored.filterMap fun s => s.gaps[i]?

/-- The kept distances, one row for each vantage point. -/
def table (leaf : Leaf π) : List (List Float) := (List.range leaf.vantage.length).map leaf.row

/-- Rows for further vantage points; no points are stored beside them yet. -/
def addRows (n : Nat) (rows : List (List Float)) : List (List Float) := rows ++ List.replicate n []

/-- Rows that go on with the distances of their vantage points to further points. -/
def lengthenRows (d : Metric) (vantage incoming : List Held) (rows : List (List Float)) :
    List (List Float) :=
  List.zipWith (fun v row => row ++ incoming.map fun p => d v.value p.value) vantage rows

@[simp] theorem length_table (leaf : Leaf π) : leaf.table.length = leaf.vantage.length := by
  simp [table]

section growing

variable {leaf leaf' : Leaf Held} {incoming : List Held}

/-- No distances are kept for a place at which there is no vantage point. -/
theorem row_eq_nil {leaf : Leaf π} {i : Nat} (h : ∀ s ∈ leaf.stored, s.gaps.length ≤ i) :
    leaf.row i = [] :=
  List.filterMap_eq_nil_iff.2 fun s hs => List.getElem?_eq_none (h s hs)

/-- **Each vantage point that is drawn brings an empty row.** -/
theorem table_draw (h : ∀ s ∈ leaf.stored, s.gaps.length = leaf.vantage.length) :
    (leaf.draw shape incoming).1.table =
      addRows (min (shape.pathLength - leaf.vantage.length) incoming.length) leaf.table := by
  have hlength : (leaf.draw shape incoming).1.vantage.length = leaf.vantage.length +
      min (shape.pathLength - leaf.vantage.length) incoming.length := by
    rw [draw_eq, List.length_append, length_drawBack_snd]
  -- the new places come after those for which the stored points keep distances
  have hnew : ∀ i, leaf.row (leaf.vantage.length + i) = [] := fun i =>
    row_eq_nil fun s hs => (h s hs).trans_le (Nat.le_add_right _ _)
  change (List.range _).map leaf.row = _
  simp only [table, addRows, hlength, List.range_add, List.map_append, List.map_map]
  congr 1
  refine List.eq_replicate_iff.2 ⟨by simp, fun x hx => ?_⟩
  obtain ⟨i, -, rfl⟩ := List.mem_map.1 hx
  exact hnew i

/-- Points are stored, each with its distances, if there is room. -/
theorem store_eq_ok : leaf.store shape d incoming = .ok leaf' ↔
    leaf.stored.length + incoming.length ≤ shape.leafCap ∧
      { leaf with stored := leaf.stored ++ incoming.map (measure d leaf.vantage) } = leaf' := by
  unfold store
  split <;> simp [*]

theorem vantage_store (h : leaf.store shape d incoming = .ok leaf') :
    leaf'.vantage = leaf.vantage := by
  obtain ⟨-, rfl⟩ := store_eq_ok.1 h
  rfl

/-- The row of a vantage point goes on with the distances to the points that are stored. -/
theorem row_store (h : leaf.store shape d incoming = .ok leaf') {i : Nat}
    (hi : i < leaf.vantage.length) :
    leaf'.row i = leaf.row i ++ incoming.map fun p => d leaf.vantage[i].value p.value := by
  obtain ⟨-, rfl⟩ := store_eq_ok.1 h
  simp [row, measure, List.filterMap_append, List.filterMap_map, Function.comp_def, hi]

/-- **Points that are stored lengthen every row.** -/
theorem table_store (h : leaf.store shape d incoming = .ok leaf') :
    leaf'.table = lengthenRows d leaf.vantage incoming leaf.table := by
  have hvantage := vantage_store h
  refine List.ext_getElem (by simp [lengthenRows, hvantage]) fun i hi _ => ?_
  rw [length_table, hvantage] at hi
  simp [table, lengthenRows, row_store h hi]

/-- The rows of a leaf that draws vantage points and stores the other points. -/
def grownRows (shape : Shape) (d : Metric) (leaf : Leaf Held) (incoming : List Held) :
    List (List Float) :=
  lengthenRows d (leaf.draw shape incoming).1.vantage (leaf.draw shape incoming).2
    (addRows (min (shape.pathLength - leaf.vantage.length) incoming.length) leaf.table)

/-- **The rows of a leaf that has taken points.**  They have grown if the points were added; if the
leaf was built anew, they have been thrown away and have grown from nothing. -/
theorem table_absorb {outcome : Outcome κ}
    (hgaps : ∀ s ∈ leaf.stored, s.gaps.length = leaf.vantage.length)
    (h : leaf.absorb shape d incoming = .ok outcome) :
    match outcome with
    | .extended leaf' => leaf'.table = leaf.grownRows shape d incoming
    | .rebuilt leaf' _ => leaf'.table = grownRows shape d {}
        ((leaf.draw shape incoming).2 ++ (leaf.draw shape incoming).1.points.filter Held.live)
    | .promoted .. => True := by
  simp only [absorb, List.partition_eq_filter_filter] at h
  split at h
  · obtain ⟨leaf', hstore, hok⟩ := bind_eq_ok.1 h
    obtain rfl := Except.ok.inj hok
    exact (table_store hstore).trans (by rw [table_draw hgaps, grownRows])
  · split at h
    · obtain ⟨leaf', hstore, hok⟩ := bind_eq_ok.1 h
      obtain rfl := Except.ok.inj hok
      exact (table_store hstore).trans (by rw [table_draw (by simp), grownRows])
    · obtain ⟨r, -, hok⟩ := bind_eq_ok.1 h
      obtain rfl := Except.ok.inj hok
      trivial

end growing

/-! ### Sound leaves -/

section sound

variable {value : π → UInt64} {leaf : Leaf π}

/-- The table of a sound leaf is the one that is measured at once. -/
theorem Sound.table_eq (h : leaf.Sound shape d value) : leaf.table =
    leaf.vantage.map fun v => leaf.stored.map fun s => d (value v) (value s.point) := by
  refine List.ext_getElem (by simp) fun i hi _ => ?_
  rw [length_table] at hi
  simp only [table, List.getElem_map, List.getElem_range]
  rw [← List.filterMap_eq_map]
  refine List.filterMap_congr fun s hs => ?_
  rw [h.gaps s hs]
  simp [hi]

/-- A search that reads the distances of a stored point off the rows passes over the same points. -/
theorem Sound.excludes_eq (h : leaf.Sound shape d value) (radius : Float) (targetGaps : List Float)
    {j : Nat} {s : Stored π} (hs : leaf.stored[j]? = some s) :
    excludes radius targetGaps s.gaps = (leaf.table.zip targetGaps).any fun x =>
      x.1[j]?.any fun p => p < x.2 - radius || x.2 + radius < p := by
  rw [h.gaps s (List.mem_of_getElem? hs), h.table_eq, excludes, List.zip_map_left,
    List.zip_map_left, List.any_map, List.any_map]
  congr 1
  funext x
  simp [hs]

/-- A sound leaf that holds points has a vantage point. -/
theorem Sound.vantage_pos (hshape : shape.Sound) (h : leaf.Sound shape d value)
    (hne : leaf.points ≠ []) : 0 < leaf.vantage.length := by
  refine Nat.pos_of_ne_zero fun hzero => hne ?_
  have hpath := hshape.pathLength
  have hstored : leaf.stored = [] := by
    by_contra hstored
    have hfull := h.full hstored
    omega
  rw [points, List.eq_nil_of_length_eq_zero hzero, hstored]
  rfl

end sound

/-- The leaf has as many vantage points and stored points as it may have, stores points only beside
all its vantage points, and keeps the right table. -/
structure Tabulates (shape : Shape) (d : Metric) (leaf : Leaf Held) : Prop where
  vantage_pos : 1 ≤ leaf.vantage.length
  vantage_le : leaf.vantage.length ≤ shape.pathLength
  stored_le : leaf.stored.length ≤ shape.leafCap
  full : leaf.stored ≠ [] → leaf.vantage.length = shape.pathLength
  /-- There is a row for each vantage point. -/
  rows : leaf.table.length = leaf.vantage.length
  /-- Every row has a distance for each stored point, and every column one for each vantage
  point. -/
  columns : ∀ row ∈ leaf.table, row.length = leaf.stored.length
  gaps : ∀ s ∈ leaf.stored, s.gaps.length = leaf.vantage.length
  /-- In the row of a vantage point stand its distances to the stored points, in their order. -/
  entry : ∀ (i j : Nat) (v : Held) (s : Stored Held),
    leaf.vantage[i]? = some v → leaf.stored[j]? = some s →
      ∃ row : List Float, leaf.table[i]? = some row ∧ row[j]? = some (d v.value s.point.value)
  /-- Measuring everything at once gives the same table. -/
  scratch : leaf.table =
    leaf.vantage.map fun v => leaf.stored.map fun s => d v.value s.point.value

theorem Sound.keeps_table {leaf : Leaf Held} (hshape : shape.Sound)
    (h : leaf.Sound shape d Held.value) (hne : leaf.points ≠ []) : leaf.Tabulates shape d where
  vantage_pos := h.vantage_pos hshape hne
  vantage_le := h.vantage_le
  stored_le := h.stored_le
  full := h.full
  rows := leaf.length_table
  columns row hrow := by
    rw [h.table_eq] at hrow
    obtain ⟨v, -, rfl⟩ := List.mem_map.1 hrow
    exact List.length_map _
  gaps s hs := by rw [h.gaps s hs, List.length_map]
  entry i j v s hv hs := by
    refine ⟨leaf.stored.map fun s => d v.value s.point.value, ?_, ?_⟩
    · rw [h.table_eq, List.getElem?_map, hv, Option.map_some]
    · rw [List.getElem?_map, hs, Option.map_some]
  scratch := h.table_eq

end Leaf

namespace Tree

variable {t : Tree} {metric : Metric}

/-- The leaves of a sound tree are sound when their points are looked up. -/
theorem Sound.looked_leaf (h : t.Sound) {s : Subtree} (hs : s ∈ t.nodes)
    (hleaf : s.node.isLeaf = true) : ∃ leaf : Leaf Held,
      s.node.lookUp t.points = .ok (.leaf leaf) ∧ leaf.Sound t.shape t.metric Held.value ∧
        leaf.points ≠ [] ∧ leaf.points.map Held.slot = s.node.points := by
  have hlooked := h.lookUp_node hs
  obtain ⟨root, hroot, hall⟩ := mem_nodes.1 hs
  have hsound := (h.root root hroot).looked hall
  cases hnode : s.node with
  | branch b => simp [hnode, Node.isLeaf] at hleaf
  | leaf l =>
      have hmap : s.looked t.points = .leaf (l.mapPoints t.points.heldAt) := by
        rw [Subtree.looked, hnode]
        rfl
      rw [hmap] at hlooked hsound
      refine ⟨_, hnode ▸ hlooked, hsound.1, hsound.2, ?_⟩
      have hpoints := Node.points_mapPoints t.points.heldAt (Node.leaf l : Node Nat Subtree)
      change ((Node.leaf l : Node Nat Subtree).mapPoints t.points.heldAt).points.map Held.slot = _
      rw [hpoints, List.map_map]
      exact List.map_id _

/-- **The leaves of a reachable tree keep the right tables**, whatever the metric. -/
theorem Reachable.tabulates (h : Reachable shape metric t) :
    ∀ s ∈ t.nodes, s.node.isLeaf = true → ∃ leaf : Leaf Held,
      s.node.lookUp t.points = .ok (.leaf leaf) ∧ leaf.Tabulates shape metric := by
  obtain ⟨hsound, rfl, rfl⟩ := h.sound
  intro s hs hleaf
  obtain ⟨leaf, hlooked, hl, hne, -⟩ := hsound.looked_leaf hs hleaf
  exact ⟨leaf, hlooked, hl.keeps_table hsound.shape hne⟩

/-- Points are added to a leaf, one of them is deleted, the leaf is built anew, and a batch that
would make it a branch is given up. It is left with a table of two rows and two columns. -/
theorem tabulates_skewed :
    ∃ t answers,
      (fresh { Shape.smallest with pathLength := 2, leafCap := 2 } skewed).performAll
          [.addBatch [(1, 1), (2, 3)], .addBatch [(3, 7)], .delete 1,
            .addBatch [(4, 15), (5, 31)], .addBatch [(6, 666)]] = .ok (t, answers) ∧
      answers.map Answer.fault? = [none, none, none, none,
        some (.batchRolledBack (.incompleteCollation 0 0 1) [(6, 666)])] ∧
      ∃ s ∈ t.nodes, s.node.isLeaf = true ∧ ∃ leaf : Leaf Held,
        s.node.lookUp t.points = .ok (.leaf leaf) ∧ leaf.vantage.length = 2 ∧
          leaf.stored.length = 2 ∧
          leaf.Tabulates { Shape.smallest with pathLength := 2, leafCap := 2 } skewed := by
  have hfresh : Reachable { Shape.smallest with pathLength := 2, leafCap := 2 } skewed
      (fresh { Shape.smallest with pathLength := 2, leafCap := 2 } skewed) := .fresh (by decide)
  have hrun : ((fresh { Shape.smallest with pathLength := 2, leafCap := 2 } skewed).performAll
      [.addBatch [(1, 1), (2, 3)], .addBatch [(3, 7)], .delete 1, .addBatch [(4, 15), (5, 31)],
        .addBatch [(6, 666)]]).toOption.any (fun r =>
      decide (r.2.map Answer.fault? = [none, none, none, none,
        some (.batchRolledBack (.incompleteCollation 0 0 1) [(6, 666)])]) &&
      r.1.nodes.any fun s => s.node.isLeaf && (s.node.lookUp r.1.points).toOption.any fun node =>
        decide (node.vantage.length = 2 ∧ node.stored.length = 2)) = true := by
    decide +kernel
  obtain ⟨t, answers, hok, hresult⟩ := any_performAll.1 hrun
  obtain ⟨hfaults, hnodes⟩ := Bool.and_eq_true_iff.1 hresult
  obtain ⟨s, hs, hnode⟩ := List.any_eq_true.1 hnodes
  obtain ⟨hleaf, hlengths⟩ := Bool.and_eq_true_iff.1 hnode
  obtain ⟨leaf, hlooked, htabulates⟩ := (hfresh.performAll hok).tabulates s hs hleaf
  rw [hlooked] at hlengths
  obtain ⟨hvantage, hstored⟩ := of_decide_eq_true hlengths
  exact ⟨t, answers, hok, of_decide_eq_true hfaults, s, hs, hleaf, leaf, hlooked, hvantage,
    (List.length_map _).symm.trans hstored, htabulates⟩

end Tree

end Vantage
