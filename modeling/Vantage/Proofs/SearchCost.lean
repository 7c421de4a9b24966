/-
**What a search finds and what it costs, whatever the metric.**

Without the laws of a metric a search may pass over what it looks for, but it still ends, and what
it finds is there. It visits some of the nodes of the tree level by level, each once, and in them it
measures some of the points that nodes hold, each once; the hits are the live points among these
that lie within the radius, put in order. Nothing of this looks at what the metric is: its distances
may be negative, may not be numbers, and may depend on the order of the arguments.

Main definitions:

* `Node.probed` — the points of a node that a visit measures;
* `Subtree.walk` — a walk level by level that goes on to some children;
* `Tree.opened`, `Tree.probed`, `Tree.discovered` — the nodes that a search visits, the points that
  it measures, and its hits in the order in which they are discovered;
* `Tree.Finds` — what is true of the outcome of a search.

Main results:

* `Subtree.walk_mono` — a walk that goes on to more children visits more nodes;
* `Subtree.walk_sublist` — **a walk visits a node at most once**;
* `Subtree.flatten_visits` — the visits of a search are those of a walk;
* `Tree.probed_sublist` — **a search measures a point at most once**;
* `Tree.Reachable.finds` — **every search of a reachable tree ends, and finds what is there**.
-/

import Vantage.Proofs.Accounting
import Vantage.Proofs.LinearScan

set_option relaxedAutoImplicit false
set_option autoImplicit false

namespace Vantage

open Binary64 (isNaN_of_le le_iff_value)

/-! ### The visit to a node -/

section visit

variable {d : Metric} {target : UInt64} {radius : Float}

/-- The stored points of a leaf that a visit measures: the live ones that the kept distances do not
exclude. -/
def Leaf.unexcluded (d : Metric) (target : UInt64) (radius : Float) (l : Leaf Held) : List Held :=
  (l.stored.filter fun s => s.point.live &&
    !excludes radius (l.vantage.map fun v => d v.value target) s.gaps).map Stored.point

theorem Leaf.live_of_mem_unexcluded {l : Leaf Held} {p : Held}
    (hp : p ∈ l.unexcluded d target radius) : p.live = true := by
  obtain ⟨s, hs, rfl⟩ := List.mem_map.1 hp
  exact (Bool.and_eq_true_iff.1 (List.mem_filter.1 hs).2).1

namespace Node

variable {κ : Type}

/-- The points of a node that a visit measures. -/
def probed (d : Metric) (target : UInt64) (radius : Float) : Node Held κ → List Held
  | .leaf l => l.vantage ++ l.unexcluded d target radius
  | .branch b => b.vantage

/-- A visit measures points of the node, each once. -/
theorem probed_sublist (node : Node Held κ) (d : Metric) (target : UInt64) (radius : Float) :
    (node.probed d target radius).Sublist node.points := by
  cases node with
  | leaf l => exact (List.filter_sublist.map _).append_left _
  | branch b => exact List.sublist_append_left _ _

theorem measured_scan (node : Node Held κ) :
    (node.scan d target radius).measured = (node.probed d target radius).length := by
  cases node with
  | leaf l =>
      rw [probed, Leaf.unexcluded, List.length_append, List.length_map]
      rfl
  | branch b => rfl

/-- **The hits of a visit are the live points within the radius among those it measures.** -/
theorem hits_probed (node : Node Held κ) :
    (node.scan d target radius).hits =
      ((node.probed d target radius).filter Held.live).filterMap (Held.hit? d target radius) := by
  cases node with
  | leaf l =>
      change _ ++ _ = _
      rw [hits_vantage, probed, List.filter_append, List.filterMap_append,
        List.filter_eq_self.2 fun p hp => Leaf.live_of_mem_unexcluded hp, Leaf.unexcluded,
        List.filterMap_map]
      rfl
  | branch b => exact hits_vantage b.vantage

end Node

end visit

/-! ### Walking level by level -/

namespace Subtree

section walk

variable (goesOn : Subtree → Nat → Bool)

/-- A walk that goes on to more children, from more nodes, goes on to more nodes. -/
theorem entered_mono {f g : Subtree → Nat → Bool} (hfg : ∀ t index, f t index = true → g t index)
    {us ts : List Subtree} (h : us.Sublist ts) :
    (us.flatMap (entered f)).Sublist (ts.flatMap (entered g)) := by
  refine (List.Sublist.flatMap_right us fun t _ => ?_).trans (h.flatMap _)
  exact (List.monotone_filter_right t.children fun x hx => hfg t x.1 hx).map _

theorem flatMap_entered_true (ts : List Subtree) :
    ts.flatMap (entered fun _ _ => true) = kids ts :=
  List.flatMap_congr fun t _ => by rw [entered, List.filter_true]

/-- A level to which a walk goes on has fewer nodes below. -/
theorem length_all_entered_lt {ts : List Subtree} (h : ts ≠ []) :
    ((ts.flatMap (entered goesOn)).flatMap all).length < (ts.flatMap all).length := by
  have hsub := entered_mono (f := goesOn) (fun _ _ _ => rfl) (.refl ts)
  rw [flatMap_entered_true] at hsub
  exact (hsub.flatMap all).length_le.trans_lt (length_all_kids_lt h)

/-- A walk level by level: the nodes of a level are visited one after another, and the children to
which the walk goes on from them are the next level. -/
def walk : List Subtree → List Subtree
  | [] => []
  | t :: rest => t :: rest ++ walk ((t :: rest).flatMap (entered goesOn))
termination_by level => (level.flatMap all).length
decreasing_by
  exact length_all_entered_lt goesOn (List.cons_ne_nil t rest)

theorem walk_eq (level : List Subtree) :
    walk goesOn level = level ++ walk goesOn (level.flatMap (entered goesOn)) := by
  cases level with
  | nil => simp [walk]
  | cons t rest => rw [walk]

/-- **A walk that goes on to more children visits more nodes**, and no fewer times. -/
theorem walk_mono {f g : Subtree → Nat → Bool} (hfg : ∀ t index, f t index = true → g t index)
    {us ts : List Subtree} (h : us.Sublist ts) : (walk f us).Sublist (walk g ts) := by
  -- induction on the number of nodes, level by level
  induction hn : (ts.flatMap all).length using Nat.strongRecOn generalizing us ts with
  | ind n ih =>
      rcases eq_or_ne ts [] with rfl | hne
      · rw [List.sublist_nil.1 h, walk]
        exact List.nil_sublist _
      · rw [walk_eq f, walk_eq g]
        exact h.append (ih _ (hn ▸ length_all_entered_lt g hne) (entered_mono hfg h) rfl)

/-- A walk that goes on to all children is the level order. -/
theorem walk_true (ts : List Subtree) : walk (fun _ _ => true) ts = (forest rows ts).flatten := by
  induction hn : (ts.flatMap all).length using Nat.strongRecOn generalizing ts with
  | ind n ih =>
      rcases eq_or_ne ts [] with rfl | hne
      · rw [walk]
        rfl
      · rw [walk_eq, flatten_forest_rows, flatMap_entered_true,
          ih _ (hn ▸ length_all_kids_lt hne) _ rfl]

/-- **A walk visits a node at most once**, in level order. -/
theorem walk_sublist {us ts : List Subtree} (h : us.Sublist ts) :
    (walk goesOn us).Sublist (forest rows ts).flatten :=
  walk_true ts ▸ walk_mono (fun _ _ _ => rfl) h

end walk

/-! ### The visits of a search -/

section visits

variable {points : Slots Point} {parts : Nat} {d : Metric} {target : UInt64} {radius : Float}

/-- The nodes of the next level hold points that the nodes of this level hold. -/
theorem mem_held_of_entered {f : Subtree → Nat → Bool} {t s : Subtree} (hs : s ∈ t.entered f)
    {slot : Nat} (hslot : slot ∈ s.held) : slot ∈ t.held := by
  obtain ⟨x, hx, rfl⟩ := List.mem_map.1 hs
  exact mem_contents_of_child (List.mem_of_mem_filter hx) hslot

/-- **The visits of searches are those of a walk.** -/
theorem flatten_visits {ts : List Subtree}
    (hocc : ∀ t ∈ ts, ∀ slot ∈ t.held, points.Occupied slot) :
    (forest (visits points parts d target radius) ts).flatten =
      (walk (goesOn points parts d target radius) ts).map fun t =>
        (t.looked points).scan d target radius := by
  induction hn : (ts.flatMap all).length using Nat.strongRecOn generalizing ts with
  | ind n ih =>
      rcases eq_or_ne ts [] with rfl | hne
      · rw [walk]
        rfl
      · rw [flatten_forest fun t ht => visits_eq (hocc t ht) _ _ _ _,
          ih _ (hn ▸ length_all_entered_lt _ hne) ?_ rfl, ← List.map_append, ← walk_eq]
        intro s hs slot hslot
        obtain ⟨t, ht, hs⟩ := List.mem_flatMap.1 hs
        exact hocc t ht slot (mem_held_of_entered hs hslot)

end visits

end Subtree

/-! ### What a search visits and measures -/

namespace Tree

variable {t : Tree} {shape : Shape} {metric : Metric} {target : UInt64} {radius : Float}

/-- The nodes that a search visits, in the order of its visits. -/
def opened (t : Tree) (target : UInt64) (radius : Float) : List Subtree :=
  Subtree.walk (Subtree.goesOn t.points t.shape.branchFactor t.metric target radius) t.root.toList

/-- The points that a search measures, in the order in which it does. -/
def probed (t : Tree) (target : UInt64) (radius : Float) : List Held :=
  (t.opened target radius).flatMap fun s => (s.looked t.points).probed t.metric target radius

/-- The hits of a search in the order in which they are discovered. -/
def discovered (t : Tree) (target : UInt64) (radius : Float) : List Hit :=
  ((t.probed target radius).filter Held.live).filterMap (Held.hit? t.metric target radius)

theorem opened_sublist (t : Tree) (target : UInt64) (radius : Float) :
    (t.opened target radius).Sublist t.nodes := by
  rw [nodes_eq, Subtree.breadthFirst_eq]
  exact Subtree.walk_sublist _ (.refl _)

/-- **A search measures a point that nodes hold at most once**, and no other. -/
theorem probed_sublist (t : Tree) (target : UInt64) (radius : Float) :
    (t.probed target radius).Sublist ((t.nodes.flatMap Subtree.own).map t.points.heldAt) := by
  rw [List.map_flatMap]
  refine (List.Sublist.flatMap_right _ fun s _ => ?_).trans
    ((t.opened_sublist target radius).flatMap _)
  have hnode := (s.looked t.points).probed_sublist t.metric target radius
  rwa [Subtree.looked, Node.points_mapPoints] at hnode

/-- The live points that a search measures are among those that nodes hold. -/
theorem subperm_placed (t : Tree) (target : UInt64) (radius : Float) :
    ((t.probed target radius).filter Held.live).Subperm t.placed :=
  ((t.probed_sublist target radius).filter _).subperm.trans
    ((t.perm_held.map _).filter _).subperm

/-- A hit that is discovered is a placed point within the radius. -/
theorem mem_placed_of_discovered {hit : Hit} (hhit : hit ∈ t.discovered target radius) :
    hit.held ∈ t.placed ∧ hit.held.live = true ∧
      hit.distance = t.metric hit.held.value target ∧ hit.distance ≤ radius := by
  obtain ⟨x, hx, hhit⟩ := List.mem_filterMap.1 hhit
  obtain ⟨hnear, rfl⟩ := Held.hit?_eq_some.1 hhit
  exact ⟨(t.subperm_placed target radius).subset hx, (List.mem_filter.1 hx).2, rfl, hnear⟩

theorem numbers_discovered (t : Tree) (target : UInt64) (radius : Float) :
    Numbers (t.discovered target radius) := by
  intro hit hhit
  exact (isNaN_of_le (mem_placed_of_discovered hhit).2.2.2).1

namespace Sound

variable (h : t.Sound)
include h

/-- The visits of a search are those to the nodes of its walk. -/
theorem flatten_visitRows (target : UInt64) (radius : Float) :
    (t.visitRows target radius).flatten = (t.opened target radius).map fun s =>
      (s.looked t.points).scan t.metric target radius := by
  have hocc := h.held_occupied
  unfold visitRows opened
  unfold held at hocc
  cases hroot : t.root with
  | none => rw [Option.toList_none, Subtree.walk]; rfl
  | some root =>
      rw [hroot] at hocc
      have hall : ∀ s ∈ [root], ∀ slot ∈ s.held, t.points.Occupied slot := by simpa using hocc
      rw [Option.toList_some]
      refine Eq.trans ?_ (Subtree.flatten_visits hall)
      rw [Subtree.forest_singleton]
      rfl

/-- **A search ends**, with the hits that are discovered put in order, a visit to each node of its
walk, and a measurement of each point that is measured there. -/
theorem search_eq_discovered (target : UInt64) (radius : Float) :
    t.search target radius = .ok ⟨nearestFirst (t.discovered target radius),
      (t.probed target radius).length, (t.opened target radius).length⟩ := by
  have hhits : ((t.visitRows target radius).flatten.flatMap Visit.hits) =
      t.discovered target radius := by
    rw [h.flatten_visitRows, List.flatMap_map, discovered, probed, List.filter_flatMap,
      List.filterMap_flatMap]
    exact List.flatMap_congr fun s _ => Node.hits_probed _
  have hmeasured : ((t.visitRows target radius).flatten.map Visit.measured).foldr (· + ·) 0 =
      (t.probed target radius).length := by
    rw [← List.sum_eq_foldr, h.flatten_visitRows, List.map_map, probed, List.length_flatMap]
    refine congrArg List.sum (List.map_congr_left fun s _ => ?_)
    exact Node.measured_scan _
  have hvisited : (t.visitRows target radius).flatten.length = (t.opened target radius).length := by
    rw [h.flatten_visitRows, List.length_map]
  rw [search_eq h, Found.ofVisits, hhits, hmeasured, hvisited]

end Sound

/-- **What is true of the outcome of a search**, whatever the metric. -/
structure Finds (t : Tree) (target : UInt64) (radius : Float) (found : Found) : Prop where
  /-- The hits are the live points within the radius among those that are measured, in order. -/
  hits : found.hits = nearestFirst (t.discovered target radius)
  sorted : found.hits.Pairwise fun x y => x.distance ≤ y.distance
  /-- A hit parts those discovered before it, and is put where it does. -/
  inserted : ∀ before hit after, t.discovered target radius = before ++ hit :: after →
    ∃ n, Parted (nearestFirst before) hit n ∧ nearestFirst (before ++ [hit]) =
      (nearestFirst before).take n ++ hit :: (nearestFirst before).drop n
  /-- No id is found twice. -/
  nodup : (found.hits.map fun hit => hit.held.point.id).Nodup
  /-- What is found is the point of an id; it is live, a node holds it, and it does not wait. -/
  point : ∀ hit ∈ found.hits, hit.held.live = true ∧
    (∃ s ∈ t.nodes, hit.held.slot ∈ s.node.points) ∧ hit.held.slot ∉ t.arrivals ∧
    t.points.get? hit.held.slot = some hit.held.point ∧
    t.ids[hit.held.point.id]? = some hit.held.slot ∧
    t.lookup? hit.held.point.id = .ok (some hit.held.point)
  distance : ∀ hit ∈ found.hits,
    hit.distance = t.metric hit.held.value target ∧ hit.distance ≤ radius
  /-- The visits are those to the nodes that are opened. -/
  visits : (t.visitRows target radius).flatten = (t.opened target radius).map fun s =>
    (s.looked t.points).scan t.metric target radius
  /-- The nodes that are opened are nodes of the tree in level order, each opened once. -/
  visited : found.visited = (t.opened target radius).length ∧
    (t.opened target radius).Sublist t.nodes ∧ ((t.opened target radius).map Subtree.slot).Nodup
  visited_le : found.visited ≤ t.nodeCount.branches + t.nodeCount.leaves
  /-- The points that are measured are points that nodes hold, each measured once. -/
  measured : found.measured = (t.probed target radius).length ∧
    ((t.probed target radius).map Held.slot).Nodup ∧
    ∀ x ∈ t.probed target radius, (∃ s ∈ t.opened target radius, x.slot ∈ s.node.points) ∧
      x.slot ∈ t.held ∧ t.points.get? x.slot = some x.point
  measured_le : found.measured ≤ t.held.length ∧ t.held.length + t.pending = t.points.size

namespace Sound

variable (h : t.Sound)
include h

/-- The nodes that a search visits are visited once. -/
theorem nodup_opened (target : UInt64) (radius : Float) :
    ((t.opened target radius).map Subtree.slot).Nodup :=
  (t.perm_slots.nodup_iff.2 h.labels.nodup).sublist ((t.opened_sublist target radius).map _)

/-- The points that a search measures are measured once. -/
theorem nodup_probed (target : UInt64) (radius : Float) :
    ((t.probed target radius).map Held.slot).Nodup := by
  have hsub := (t.probed_sublist target radius).map Held.slot
  rw [List.map_map, show Held.slot ∘ t.points.heldAt = id from rfl, List.map_id] at hsub
  exact (t.perm_held.nodup_iff.2 (List.Nodup.of_append_left h.points.nodup)).sublist hsub

/-- What a search measures is held by a node that it visits. -/
theorem get?_of_mem_probed {x : Held} (hx : x ∈ t.probed target radius) :
    (∃ s ∈ t.opened target radius, x.slot ∈ s.node.points) ∧ x.slot ∈ t.held ∧
      t.points.get? x.slot = some x.point := by
  obtain ⟨s, hs, hx⟩ := List.mem_flatMap.1 hx
  have hpoint := (Node.probed_sublist _ _ _ _).subset hx
  rw [Subtree.looked, Node.points_mapPoints] at hpoint
  obtain ⟨slot, hslot, rfl⟩ := List.mem_map.1 hpoint
  have hheld : slot ∈ t.held := t.perm_held.mem_iff.1
    (List.mem_flatMap.2 ⟨s, (t.opened_sublist target radius).subset hs, hslot⟩)
  obtain ⟨p, hp⟩ := h.points.exists_get? (List.mem_append_left _ hheld)
  refine ⟨⟨s, hs, hslot⟩, hheld, ?_⟩
  rw [t.points.heldAt_of_get? hp]
  exact hp

/-- No id is discovered twice. -/
theorem nodup_discovered (target : UInt64) (radius : Float) :
    ((t.discovered target radius).map fun hit => hit.held.point.id).Nodup := by
  have hsub := (sublist_hits t.metric target radius
    ((t.probed target radius).filter Held.live)).map fun x => x.point.id
  rw [List.map_map] at hsub
  obtain ⟨xs, hperm, hxs⟩ := t.subperm_placed target radius
  exact ((hperm.map _).nodup_iff.1 (h.nodup_placed.sublist (hxs.map _))).sublist hsub

/-- **A search of a sound tree finds what is there.** -/
theorem finds_search (target : UInt64) (radius : Float) :
    t.Finds target radius ⟨nearestFirst (t.discovered target radius),
      (t.probed target radius).length, (t.opened target radius).length⟩ := by
  have hnumbers := t.numbers_discovered target radius
  have hperm := nearestFirst_perm (t.discovered target radius)
  have hnodes : t.nodes.length = t.nodeCount.branches + t.nodeCount.leaves := t.nodeCount_eq.symm
  refine
    { hits := rfl
      sorted := ?_
      inserted := fun before hit after heq => ?_
      nodup := (hperm.map _).nodup_iff.2 (h.nodup_discovered target radius)
      point := fun hit hhit => ?_
      distance := fun hit hhit => (mem_placed_of_discovered (hperm.mem_iff.1 hhit)).2.2
      visits := h.flatten_visitRows target radius
      visited := ⟨rfl, t.opened_sublist target radius, h.nodup_opened target radius⟩
      visited_le := hnodes ▸ (t.opened_sublist target radius).length_le
      measured := ⟨rfl, h.nodup_probed target radius, fun x hx => h.get?_of_mem_probed hx⟩
      measured_le := ⟨?_, ?_⟩ }
  · refine (nearest_nearestFirst hnumbers).1.imp_of_mem fun hx hy hle => ?_
    exact (le_iff_value (hnumbers _ (hperm.mem_iff.1 hx)) (hnumbers _ (hperm.mem_iff.1 hy))).2 hle
  · -- the hits discovered before are in order, and all are at a distance that is a number
    rw [heq] at hnumbers
    have hbefore : Numbers before := fun x hx => hnumbers x (List.mem_append_left _ hx)
    have hhit := hnumbers hit (List.mem_append_right _ List.mem_cons_self)
    obtain ⟨n, hparted⟩ := (nearest_nearestFirst hbefore).1.exists_parted
      (fun x hx => hbefore x ((nearestFirst_perm before).mem_iff.1 hx)) hhit
    refine ⟨n, hparted, ?_⟩
    rw [← hparted.insertHit, nearestFirst, List.foldl_append]
    rfl
  · obtain ⟨hplaced, hlive, -⟩ := mem_placed_of_discovered (hperm.mem_iff.1 hhit)
    obtain ⟨hid, hwaits, hp⟩ := h.mem_placed.1 hplaced
    refine ⟨hlive, exists_node_of_mem_held ?_, hwaits, hp, hid, h.lookup?_of_placed hplaced⟩
    exact (List.mem_append.1 (h.points.mem_of_get? hp)).resolve_right hwaits
  · have hlength := (t.probed_sublist target radius).length_le
    rwa [List.length_map, t.perm_held.length_eq] at hlength
  · rw [h.points.size, List.length_append, Registry.pending]

end Sound

/-- **Every search of a reachable tree ends, and finds what is there**, whatever the metric. -/
theorem Reachable.finds (h : Reachable shape metric t) (target : UInt64) (radius : Float) :
    ∃ found, t.search target radius = .ok found ∧ t.Finds target radius found := by
  obtain ⟨hsound, -, -⟩ := h.sound
  exact ⟨_, hsound.search_eq_discovered target radius, hsound.finds_search target radius⟩

/-- A distance that is negative one way and no number from one fingerprint. Of six placed points one
is dead, one is at no distance and one lies too far away, and a seventh point waits. -/
theorem finds_lopsided :
    ∃ t answers, (fresh { Shape.smallest with syncThreshold := 3 } fun a b =>
        if a = 15 then Float.nan else if a < b then -hamming a b else hamming a b).performAll
          [.addBatch [(1, 1), (2, 3), (3, 7), (4, 15), (6, 31), (7, 2)], .delete 2, .add 5 6] =
            .ok (t, answers) ∧
      t.pending = 1 ∧ ∃ found, t.search 3 2 = .ok found ∧
        found.hits.map (fun hit => hit.held.point.id) = [7, 1, 3] ∧ t.Finds 3 2 found := by
  have hfresh : Reachable { Shape.smallest with syncThreshold := 3 }
      (fun a b => if a = 15 then Float.nan else if a < b then -hamming a b else hamming a b)
      (fresh { Shape.smallest with syncThreshold := 3 } fun a b =>
        if a = 15 then Float.nan else if a < b then -hamming a b else hamming a b) :=
    .fresh (by decide)
  have hrun : ((fresh { Shape.smallest with syncThreshold := 3 } fun a b =>
      if a = 15 then Float.nan else if a < b then -hamming a b else hamming a b).performAll
        [.addBatch [(1, 1), (2, 3), (3, 7), (4, 15), (6, 31), (7, 2)], .delete 2,
          .add 5 6]).toOption.any (fun r => decide (r.1.pending = 1) &&
      (r.1.search 3 2).toOption.any fun found =>
        decide (found.hits.map (fun hit => hit.held.point.id) = [7, 1, 3])) = true := by
    decide +kernel
  obtain ⟨t, answers, hok, hresult⟩ := any_performAll.1 hrun
  obtain ⟨hpending, hhits⟩ := Bool.and_eq_true_iff.1 hresult
  obtain ⟨found, hfound, hfinds⟩ := (hfresh.performAll hok).finds 3 2
  rw [hfound] at hhits
  exact ⟨t, answers, hok, of_decide_eq_true hpending, found, hfound, of_decide_eq_true hhits,
    hfinds⟩

end Tree

end Vantage
