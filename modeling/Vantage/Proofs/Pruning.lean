/-
**Passing over nodes and points changes nothing.**

A search passes over a stored point when the kept distances exclude it, and over a child when the
cuts of a branch say that nothing near can be below it. With a lawful metric both are safe, also in
the rounded arithmetic in which they are decided: what is passed over lies farther away than the
radius. So a search yields what a walk over all nodes yields.

Main definitions:

* `Node.share` — the live points that a node holds within the radius;
* `Subtree.breadthFirst` — a walk over all nodes with a queue.

Main results:

* `excludes_eq_false`, `admits_of_part?` — **what is near is not passed over**;
* `Node.hits_scan` — the visit to a node finds its share;
* `Subtree.hits_visits` — the visits of a search find the shares of all nodes;
* `Subtree.breadthFirst_eq` — the rows of a tree are the walk with a queue;
* `Tree.Reachable.search_eq_walk` — **a search is an unpruned walk, put in order**.
-/

import Vantage.Proofs.HitOrder
import Vantage.Proofs.MetricLaws
import Vantage.Proofs.Runs

set_option relaxedAutoImplicit false
set_option autoImplicit false

namespace Vantage

open Binary64 (value isNaN_of_le isNaN_of_lt isNaN_add le_add sub_le sub_lt le_iff_value
  lt_iff_value)

variable {d : Metric} {target : UInt64} {radius : Float}

/-! ### The share of a node -/

/-- The hit of a point that lies within the radius. -/
def Held.hit? (d : Metric) (target : UInt64) (radius : Float) (h : Held) : Option Hit :=
  let gap := d h.value target
  if gap ≤ radius then some ⟨h, gap⟩ else none

/-- The hits among the points of a node: its live vantage points and then its live stored points
that lie within the radius, in storage order. -/
def Node.share {κ : Type} (d : Metric) (target : UInt64) (radius : Float) (node : Node Held κ) :
    List Hit :=
  (node.points.filter Held.live).filterMap (Held.hit? d target radius)

theorem Held.hit?_eq_none {h : Held} :
    h.hit? d target radius = none ↔ ¬ d h.value target ≤ radius := by
  simp [Held.hit?]

theorem Held.hit?_eq_some {h : Held} {hit : Hit} :
    h.hit? d target radius = some hit ↔
      d h.value target ≤ radius ∧ hit = ⟨h, d h.value target⟩ := by
  simp [Held.hit?, eq_comm]

/-! ### What is near -/

section near

variable {x v : UInt64} (hd : d.Lawful) (hx : d x target ≤ radius)
include hd hx

/-- A radius within which something lies is a number, and not negative. -/
theorem radius_of_near : radius.isNaN = false ∧ 0 ≤ value radius := by
  obtain ⟨hgap, hradius⟩ := isNaN_of_le hx
  exact ⟨hradius, (hd.nonneg x target).trans ((le_iff_value hgap hradius).1 hx)⟩

/-- From a vantage point, what is near lies at most the radius beyond the target. -/
theorem value_le_of_near : value (d v x) ≤ value (d v target) + value radius := by
  obtain ⟨hgap, hradius⟩ := isNaN_of_le hx
  calc value (d v x) ≤ value (d v target) + value (d target x) := hd.triangle v target x
    _ = value (d v target) + value (d x target) := by rw [hd.symm target x]
    _ ≤ value (d v target) + value radius :=
      add_le_add_right ((le_iff_value hgap hradius).1 hx) _

/-- From a vantage point, the target lies at most the radius beyond what is near. -/
theorem value_le_of_near' : value (d v target) ≤ value (d v x) + value radius := by
  obtain ⟨hgap, hradius⟩ := isNaN_of_le hx
  calc value (d v target) ≤ value (d v x) + value (d x target) := hd.triangle v x target
    _ ≤ value (d v x) + value radius := add_le_add_right ((le_iff_value hgap hradius).1 hx) _

/-- What is near does not lie more than the radius before the target. -/
theorem not_lt_sub_of_near : ¬ d v x < d v target - radius := by
  obtain ⟨hradius, -⟩ := radius_of_near hd hx
  intro hlt
  obtain ⟨hstored, hsub⟩ := isNaN_of_lt hlt
  have hle : d v target - radius ≤ d v x := sub_le (hd.isNumber v target) hradius hstored hsub
    (EReal.sub_le_of_le_add (value_le_of_near' hd hx))
  rw [le_iff_value hsub hstored] at hle
  exact absurd ((lt_iff_value hstored hsub).1 hlt) (not_lt.2 hle)

/-- What is near does not lie more than the radius behind the target. -/
theorem not_add_lt_of_near : ¬ d v target + radius < d v x := by
  obtain ⟨hradius, -⟩ := radius_of_near hd hx
  intro hlt
  obtain ⟨hadd, hstored⟩ := isNaN_of_lt hlt
  have hle : d v x ≤ d v target + radius :=
    le_add (hd.isNumber v target) hradius hstored hadd (value_le_of_near hd hx)
  rw [le_iff_value hstored hadd] at hle
  exact absurd ((lt_iff_value hadd hstored).1 hlt) (not_lt.2 hle)

/-- **What is near is not excluded** by its distances to the vantage points of a leaf. -/
theorem excludes_eq_false (vantage : List Held) :
    excludes radius (vantage.map fun v => d v.value target) (vantage.map fun v => d v.value x) =
      false := by
  rw [excludes, List.zip_map', List.any_map, List.any_eq_false]
  intro v _
  simp [not_lt_sub_of_near hd hx, not_add_lt_of_near hd hx]

/-- **What is near is in no part that is passed over.** -/
theorem admits_of_part? {cuts : List Float} {j : Nat} (hpart : part? cuts (d v x) = some j) :
    admits cuts radius (d v target) j = true := by
  obtain ⟨hradius, hradius₀⟩ := radius_of_near hd hx
  unfold part? at hpart
  split at hpart
  next i hi =>
    -- below a cut: the exact bound survives rounding
    obtain rfl := Option.some.inj hpart
    obtain ⟨hlt, hle, -⟩ := List.findIdx?_eq_some_iff_getElem.1 hi
    have hle : d v x ≤ cuts[i] := by simpa using hle
    obtain ⟨hstored, hcut⟩ := isNaN_of_le hle
    rw [le_iff_value hstored hcut] at hle
    have hcut₀ : 0 ≤ value cuts[i] := (hd.nonneg v x).trans hle
    rw [admits, List.getElem?_eq_getElem hlt]
    refine decide_eq_true (le_add hcut hradius (hd.isNumber v target)
      (isNaN_add hcut hradius hcut₀ hradius₀) ?_)
    exact (value_le_of_near' hd hx).trans (add_le_add_left hle _)
  next =>
    -- beyond the last cut: the bound is strict, and rounding keeps it strict
    obtain ⟨last, hlast, hpart⟩ := Option.bind_eq_some_iff.1 hpart
    split at hpart
    next hlt =>
      obtain rfl := Option.some.inj hpart
      rw [admits, List.getElem?_eq_none le_rfl, hlast]
      exact decide_eq_true (sub_lt (hd.isNumber v target) hradius (hd.nonneg v target) hradius₀
        hlt (value_le_of_near hd hx))
    next => cases hpart

/-- A search goes on to the child where something near is routed. -/
theorem reachesFrom_of_routesFrom {parts index : Nat} {levels : List Level} {vantage : List Held}
    (h : Branch.RoutesFrom parts index (levels.zip (vantage.map fun v => d v.value x))) :
    Branch.reachesFrom parts radius index (levels.zip (vantage.map fun v => d v.value target)) =
      true := by
  induction levels generalizing vantage with
  | nil => rfl
  | cons level levels ih =>
      cases vantage with
      | nil => rfl
      | cons v vantage =>
          rw [List.map_cons, List.zip_cons_cons] at h
          obtain ⟨⟨cuts, hcuts, hpart⟩, hrest⟩ := h
          have hlength : (levels.zip (vantage.map fun v => d v.value target)).length =
              (levels.zip (vantage.map fun v => d v.value x)).length := by
            rw [List.length_zip, List.length_zip, List.length_map, List.length_map]
          rw [List.map_cons, List.zip_cons_cons, Branch.reachesFrom, ih hrest, hlength, hcuts,
            Bool.and_true]
          exact admits_of_part? hd hx hpart

end near

/-! ### The visit to a node -/

/-- The vantage points of a node that lie within the radius. -/
theorem hits_vantage (vantage : List Held) :
    ((vantage.zip (vantage.map fun v => d v.value target)).filterMap fun (v, gap) =>
        if v.live ∧ gap ≤ radius then some (⟨v, gap⟩ : Hit) else none) =
      (vantage.filter Held.live).filterMap (Held.hit? d target radius) := by
  induction vantage with
  | nil => rfl
  | cons v rest ih =>
      rw [List.map_cons, List.zip_cons_cons, List.filterMap_cons, ih]
      cases hlive : v.live with
      | false =>
          rw [List.filter_cons_of_neg (by simp [hlive])]
          simp [hlive]
      | true =>
          rw [List.filter_cons_of_pos hlive, List.filterMap_cons]
          simp [Held.hit?, hlive]

/-- The stored points of a leaf that lie within the radius are among those that are measured. -/
theorem hits_stored (hd : d.Lawful) {vantage : List Held} {stored : List (Stored Held)}
    (hgaps : ∀ s ∈ stored, s.gaps = vantage.map fun v => d v.value s.point.value) :
    ((stored.filter fun s => s.point.live &&
          !excludes radius (vantage.map fun v => d v.value target) s.gaps).filterMap fun s =>
        let gap := d s.point.value target
        if gap ≤ radius then some (⟨s.point, gap⟩ : Hit) else none) =
      ((stored.map Stored.point).filter Held.live).filterMap (Held.hit? d target radius) := by
  induction stored with
  | nil => rfl
  | cons s rest ih =>
      obtain ⟨hs, hrest⟩ := List.forall_mem_cons.1 hgaps
      have ih := ih hrest
      cases hlive : s.point.live with
      | false =>
          rw [List.filter_cons_of_neg (by simp [hlive]), List.map_cons,
            List.filter_cons_of_neg (by simp [hlive]), ih]
      | true =>
          rw [List.map_cons, List.filter_cons_of_pos hlive, List.filterMap_cons]
          by_cases hnear : d s.point.value target ≤ radius
          · -- a point that is near is measured
            have hkept := excludes_eq_false hd hnear vantage
            rw [← hs] at hkept
            rw [List.filter_cons_of_pos (by simp [hlive, hkept]), List.filterMap_cons, ih]
            simp [Held.hit?]
          · -- another one makes no hit, whether it is measured or not
            rw [Held.hit?_eq_none.2 hnear, List.filter_cons]
            split
            · rw [List.filterMap_cons, if_neg hnear, ih]
            · exact ih

namespace Node

variable {κ : Type} {shape : Shape} {below : κ → List UInt64} {node : Node Held κ}

/-- **The visit to a node finds its share.** -/
theorem hits_scan (hd : d.Lawful) (h : node.Sound shape d Held.value below) :
    (node.scan d target radius).hits = node.share d target radius := by
  cases node with
  | leaf l =>
      change _ ++ _ = _
      rw [hits_vantage, hits_stored hd h.1.gaps, ← List.filterMap_append, ← List.filter_append]
      rfl
  | branch b =>
      change List.filterMap _ _ = _
      rw [show b.gaps d target = b.vantage.map fun v => d v.value target from rfl, hits_vantage,
        share, Branch.node_points]

/-- **A search goes on to the children below which something is near.** -/
theorem opens_of_near (hd : d.Lawful) (h : node.Sound shape d Held.value below)
    {x : Nat × κ} (hx : x ∈ node.children) {v : UInt64} (hv : v ∈ below x.2)
    (hnear : d v target ≤ radius) : node.opens shape.branchFactor d target radius x.1 = true := by
  cases node with
  | leaf l => rfl
  | branch b =>
      have hrouted := Branch.Sound.routed h x hx v hv
      exact reachesFrom_of_routesFrom hd hnear hrouted

/-- A node all of whose points lie farther away has no share. -/
theorem share_eq_nil (h : ∀ p ∈ node.points, ¬ d p.value target ≤ radius) :
    node.share d target radius = [] := by
  rw [share, List.filterMap_eq_nil_iff]
  exact fun p hp => Held.hit?_eq_none.2 (h p (List.mem_of_mem_filter hp))

end Node

/-! ### The visits of a search -/

namespace Subtree

variable {shape : Shape} {points : Slots Point} {t s : Subtree}

/-- The share of the node of a tree, with its points at hand. -/
def share (points : Slots Point) (d : Metric) (target : UInt64) (radius : Float) (t : Subtree) :
    List Hit :=
  (t.looked points).share d target radius

theorem Sound.looked (h : t.Sound shape d points) (hs : s ∈ t.all) :
    (s.looked points).Sound shape d Held.value (values points) :=
  (h s hs).mapPoints (fun _ _ => rfl) fun _ _ _ hv => hv

theorem mem_all_of_rowAt {k : Nat} (h : s ∈ rowAt k t.rows) : s ∈ t.all := by
  refine t.rows_perm_all.mem_iff.1 ?_
  unfold rowAt at h
  cases hrow : t.rows[k]? with
  | none =>
      rw [hrow] at h
      cases h
  | some row =>
      rw [hrow] at h
      exact List.mem_flatten.2 ⟨row, List.mem_of_getElem? hrow, h⟩

/-- Below a child to which a search does not go on no node has a share. -/
theorem shares_eq_nil (hd : d.Lawful) (h : t.Sound shape d points) {x : Nat × Subtree}
    (hx : x ∈ t.children)
    (hclosed : ¬ (t.looked points).opens shape.branchFactor d target radius x.1 = true) (k : Nat) :
    (rowAt k x.2.rows).flatMap (share points d target radius) = [] := by
  refine List.flatMap_eq_nil_iff.2 fun s hs => Node.share_eq_nil fun p hp hnear => ?_
  rw [looked, Node.points_mapPoints] at hp
  obtain ⟨slot, hslot, rfl⟩ := List.mem_map.1 hp
  refine hclosed (Node.opens_of_near hd (h.looked t.mem_all_self) (x := x) ?_ ?_ hnear)
  · rw [looked, Node.children_mapPoints]
    exact hx
  · exact List.mem_map_of_mem (mem_held (mem_all_of_rowAt hs) hslot)

/-- Row by row, the visits of a search find the shares of all nodes. -/
theorem hits_rowAt (hd : d.Lawful) (h : t.Sound shape d points)
    (hocc : ∀ slot ∈ t.held, points.Occupied slot) (k : Nat) :
    (rowAt k (t.visits points shape.branchFactor d target radius)).flatMap Visit.hits =
      (rowAt k t.rows).flatMap (share points d target radius) := by
  -- induction on the level; a row below a child that is passed over has no share
  induction k generalizing t with
  | zero =>
      rw [rowAt_visits_zero hocc, rowAt_rows_zero, List.flatMap_singleton, List.flatMap_singleton]
      exact Node.hits_scan hd (h.looked t.mem_all_self)
  | succ k ih =>
      rw [rowAt_visits_succ hocc, rowAt_rows_succ, List.flatMap_assoc, List.flatMap_assoc]
      refine List.flatMap_congr fun x hx => ?_
      split
      next => exact ih (h.child hx) fun slot hslot => hocc slot (mem_contents_of_child hx hslot)
      next hclosed => rw [shares_eq_nil hd h hx hclosed, List.flatMap_nil]

/-- **The visits of a search find the shares of all nodes**, in level order. -/
theorem hits_visits (hd : d.Lawful) (h : t.Sound shape d points)
    (hocc : ∀ slot ∈ t.held, points.Occupied slot) :
    (t.visits points shape.branchFactor d target radius).flatten.flatMap Visit.hits =
      t.rows.flatten.flatMap (share points d target radius) :=
  flatten_eq_of_rowAt (hits_rowAt hd h hocc)

/-! ### A walk with a queue -/

/-- The nodes of trees, breadth first: the first tree of the queue is taken, and its children line
up behind the others. -/
def breadthFirst : List Subtree → List Subtree
  | [] => []
  | t :: queue => t :: breadthFirst (queue ++ t.children.map Prod.snd)
termination_by queue => (queue.flatMap all).length
decreasing_by
  rw [List.flatMap_append, List.flatMap_cons, all_eq t, List.flatMap_map]
  simp only [List.length_append, List.length_cons]
  omega

/-- A tree has its root and the nodes of its children. -/
theorem length_all (ts : List Subtree) :
    (ts.flatMap all).length = ts.length + ((kids ts).flatMap all).length := by
  induction ts with
  | nil => rfl
  | cons t rest ih =>
      have hkids : kids (t :: rest) = t.children.map Prod.snd ++ kids rest := List.flatMap_cons
      rw [hkids, List.flatMap_append, List.flatMap_cons, all_eq t, List.flatMap_map]
      simp only [List.length_append, List.length_cons, ih]
      omega

/-- There are fewer nodes below the roots of some trees. -/
theorem length_all_kids_lt {ts : List Subtree} (h : ts ≠ []) :
    ((kids ts).flatMap all).length < (ts.flatMap all).length := by
  have hpos := List.length_pos_iff.2 h
  rw [length_all ts]
  omega

/-- The trees at the front of the queue are taken first, and all their children line up. -/
theorem breadthFirst_append (ts queue : List Subtree) :
    breadthFirst (ts ++ queue) = ts ++ breadthFirst (queue ++ kids ts) := by
  induction ts generalizing queue with
  | nil => simp [kids]
  | cons t rest ih =>
      rw [List.cons_append, breadthFirst, List.append_assoc, ih, List.append_assoc]
      rfl

/-- **The rows of trees are the walk with a queue.** -/
theorem breadthFirst_eq (ts : List Subtree) : breadthFirst ts = (forest rows ts).flatten := by
  -- induction on the number of nodes: a whole row is taken before the next one
  induction hn : (ts.flatMap all).length using Nat.strongRecOn generalizing ts with
  | ind n ih =>
      cases ts with
      | nil => simp [breadthFirst]
      | cons t rest =>
          have hwalk := breadthFirst_append (t :: rest) []
          rw [List.append_nil, List.nil_append] at hwalk
          rw [hwalk, flatten_forest_rows,
            ih _ (hn ▸ length_all_kids_lt (List.cons_ne_nil t rest)) _ rfl]

end Subtree

/-! ### Searches -/

namespace Tree

variable {shape : Shape} {t : Tree}

/-- The nodes of a tree are those of the walk with a queue. -/
theorem nodes_eq (t : Tree) : t.nodes = Subtree.breadthFirst t.root.toList := by
  rw [Subtree.breadthFirst_eq, nodes]
  cases t.root with
  | none => rfl
  | some root => simp

/-- The nodes of a sound tree can be looked up. -/
theorem Sound.lookUp_node (h : t.Sound) {s : Subtree} (hs : s ∈ t.nodes) :
    s.node.lookUp t.points = .ok (s.looked t.points) := by
  obtain ⟨root, hroot, hs⟩ := mem_nodes.1 hs
  refine Node.lookUp_eq fun slot hslot => h.held_occupied slot ?_
  rw [held, hroot]
  exact Subtree.mem_held hs hslot

/-- The shares of the nodes of a tree, in level order. -/
def shares (t : Tree) (target : UInt64) (radius : Float) : List Hit :=
  t.nodes.flatMap (Subtree.share t.points t.metric target radius)

/-- The visits of a search find the shares of all nodes. -/
theorem Sound.hits_visitRows (h : t.Sound) (hd : t.metric.Lawful) :
    (t.visitRows target radius).flatten.flatMap Visit.hits = t.shares target radius := by
  have hocc := h.held_occupied
  unfold visitRows shares nodes
  unfold held at hocc
  cases hroot : t.root with
  | none => rfl
  | some root =>
      rw [hroot] at hocc
      exact Subtree.hits_visits hd (h.root root hroot) hocc

/-- What lies within a radius has a number as its distance. -/
theorem numbers_shares (t : Tree) (target : UInt64) (radius : Float) :
    Numbers (t.shares target radius) := by
  intro hit hhit
  obtain ⟨s, -, hhit⟩ := List.mem_flatMap.1 hhit
  obtain ⟨p, -, hp⟩ := List.mem_filterMap.1 hhit
  obtain ⟨hle, rfl⟩ := Held.hit?_eq_some.1 hp
  exact (isNaN_of_le hle).1

/-- The hits of a search are the shares of all nodes, nearest first. -/
theorem Sound.search_eq_shares (h : t.Sound) (hd : t.metric.Lawful) (target : UInt64)
    (radius : Float) : ∃ found, t.search target radius = .ok found ∧
      found.hits = nearestFirst (t.shares target radius) := by
  refine ⟨_, Tree.search_eq h target radius, ?_⟩
  rw [← h.hits_visitRows hd]
  rfl

/-- **A search is an unpruned walk, put in order.**  With a lawful metric, the hits of a search of a
reachable tree are those of all nodes, taken breadth first, in each node first the live vantage
points and then the live stored points within the radius, and sorted stably by distance; and the
points that a node reports by itself are those of its share. -/
theorem Reachable.search_eq_walk (h : Reachable shape d t) (hd : d.Lawful) (target : UInt64)
    (radius : Float) :
    (∃ found, t.search target radius = .ok found ∧
      found.hits = ((Subtree.breadthFirst t.root.toList).flatMap fun s =>
        (s.looked t.points).share d target radius).mergeSort fun x y => x.distance ≤ y.distance) ∧
      ∀ s ∈ Subtree.breadthFirst t.root.toList,
        s.node.lookUp t.points = .ok (s.looked t.points) ∧
          (s.looked t.points).within d target radius =
            ((s.looked t.points).share d target radius).map Hit.held := by
  obtain ⟨hsound, rfl, rfl⟩ := h.sound
  rw [← nodes_eq]
  refine ⟨?_, fun s hs => ⟨hsound.lookUp_node hs, ?_⟩⟩
  · obtain ⟨found, hok, hhits⟩ := hsound.search_eq_shares hd target radius
    refine ⟨found, hok, hhits.trans ?_⟩
    exact nearestFirst_eq_mergeSort (t.numbers_shares target radius)
  · obtain ⟨root, hroot, hs⟩ := mem_nodes.1 hs
    rw [Node.within, Node.hits_scan hd ((hsound.root root hroot).looked hs)]

/-- Four fingerprints, two of them within two bits of zero, in a tree of several nodes. -/
theorem search_eq_walk_four :
    ∃ t answer, (fresh .smallest hamming).perform (.addBatch [(1, 1), (2, 3), (3, 7), (4, 15)]) =
        .ok (t, answer) ∧
      (∃ found, t.search 0 2 = .ok found ∧
        found.hits = ((Subtree.breadthFirst t.root.toList).flatMap fun s =>
          (s.looked t.points).share hamming 0 2).mergeSort fun x y => x.distance ≤ y.distance) ∧
      ∀ s ∈ Subtree.breadthFirst t.root.toList,
        s.node.lookUp t.points = .ok (s.looked t.points) ∧
          (s.looked t.points).within hamming 0 2 =
            ((s.looked t.points).share hamming 0 2).map Hit.held := by
  have hfresh : Reachable .smallest hamming (fresh .smallest hamming) :=
    .fresh Shape.smallest_sound
  obtain ⟨t, answer, hop, -⟩ :=
    hfresh.sound.1.exists_performs (.addBatch [(1, 1), (2, 3), (3, 7), (4, 15)])
  exact ⟨t, answer, hop, (hfresh.step hop).search_eq_walk lawful_hamming 0 2⟩

end Tree

end Vantage
