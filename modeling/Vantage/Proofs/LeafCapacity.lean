/-
**What becomes of a leaf, by the number of its points.**

A leaf that is handed points first draws the vantage points that it misses, and then looks for room
among its stored points only; if there is none, it gives up all its points, the drawn ones among
them. Two numbers decide all the same: the points that the leaf would hold with the new ones, and
those of them that are live. If the leaf has room for the former it is extended, with everything
left where it is; if it has room for the latter only, it is built anew without its dead points; and
if it has room for neither, a branch takes its place.

Main definitions:

* `Leaf.live`, `Leaf.dead` — the points of a leaf of either kind;
* `Leaf.Outcome.points` — the points that are in the leaf or branch, on their way, or dead;
* `Leaf.Outcome.ByNumbers` — which of the three it is, and what has happened.

Main results:

* `Leaf.room_iff` — **there is room for the points that are not drawn exactly when there is room for
  all points**;
* `Leaf.absorb_of_fits`, `Leaf.absorb_of_live_fits`, `Leaf.absorb_of_live_exceeds` — the three
  cases;
* `Leaf.exists_absorb` — with a sortable metric a leaf within its bounds takes all points, by their
  number;
* `Tree.Reachable.leaf_by_numbers` — **so do the leaves of a reachable tree, and new ones**.
-/

import Vantage.Proofs.GapTable
import Vantage.Proofs.Refusals

set_option relaxedAutoImplicit false
set_option autoImplicit false

namespace Vantage

variable {κ : Type} {shape : Shape} {d : Metric} {leaf : Leaf Held} {incoming : List Held}

namespace Leaf

/-- The live points of a leaf. -/
def live (leaf : Leaf Held) : List Held := leaf.points.filter Held.live

/-- The dead points of a leaf. -/
def dead (leaf : Leaf Held) : List Held := leaf.points.filter (not ∘ Held.live)

theorem length_points (leaf : Leaf Held) :
    leaf.points.length = leaf.vantage.length + leaf.stored.length := by
  simp [points]

theorem perm_live_dead (leaf : Leaf Held) : (leaf.live ++ leaf.dead).Perm leaf.points :=
  List.filter_append_perm _ _

theorem inBounds_empty (shape : Shape) : ({} : Leaf Held).InBounds shape where
  vantage := Nat.zero_le _
  stored := Nat.zero_le _
  full h := absurd rfl h
  gaps _ h := absurd h (by simp)

/-! ### Drawing -/

/-- **There is room beside the stored points exactly when the leaf has room for all points.**  This
rests on the leaf storing points only beside all its vantage points. -/
theorem room_iff (incoming : List Held) (h : leaf.InBounds shape) :
    (leaf.draw shape incoming).1.stored.length + (leaf.draw shape incoming).2.length ≤
        shape.leafCap ↔
      leaf.points.length + incoming.length ≤ shape.leafLimit := by
  obtain ⟨-, hrest⟩ := length_draw incoming h.vantage
  have hstored : (leaf.draw shape incoming).1.stored = leaf.stored := rfl
  have hlimit : shape.leafLimit = shape.leafCap + shape.pathLength := rfl
  have hle := h.vantage
  rw [hstored, hrest, length_points, hlimit]
  by_cases hnil : leaf.stored = []
  · rw [hnil, List.length_nil]
    omega
  · have hfull := h.full hnil
    omega

/-- What is drawn is live when the new points are, so the dead points are those of the leaf. -/
theorem dead_draw (shape : Shape) (hlive : ∀ p ∈ incoming, p.live = true) :
    (leaf.draw shape incoming).1.dead = leaf.dead := by
  have hdrawn : ∀ p ∈ (drawBack (shape.pathLength - leaf.vantage.length) incoming).2,
      p.live = true := by
    intro p hp
    exact hlive p ((perm_drawBack _ incoming).mem_iff.1 (List.mem_append_right _ hp))
  have hnone : (drawBack (shape.pathLength - leaf.vantage.length) incoming).2.filter
      (not ∘ Held.live) = [] :=
    List.filter_eq_nil_iff.2 fun p hp => by simp [hdrawn p hp]
  simp [dead, points, draw_eq, List.filter_append, hnone]

/-- The points that are placed anew are the live ones, old and new. -/
theorem perm_again (shape : Shape) (leaf : Leaf Held) (hlive : ∀ p ∈ incoming, p.live = true) :
    ((leaf.draw shape incoming).2 ++ (leaf.draw shape incoming).1.live).Perm
      (leaf.live ++ incoming) := by
  have hrest : (leaf.draw shape incoming).2.filter Held.live = (leaf.draw shape incoming).2 := by
    rw [draw_eq]
    exact List.filter_eq_self.2 fun p hp => hlive p (List.mem_of_mem_take hp)
  have hall : incoming.filter Held.live = incoming := List.filter_eq_self.2 hlive
  have hperm := (perm_draw shape leaf incoming).filter Held.live
  rw [List.filter_append, List.filter_append, hrest, hall] at hperm
  exact List.perm_append_comm.trans hperm

/-! ### The three cases -/

namespace Outcome

/-- The points that are in the leaf or branch, on their way to children, or dead. -/
def points : Outcome κ → List Held
  | .extended leaf => leaf.points
  | .rebuilt leaf dead => leaf.points ++ dead
  | .promoted branch onward dead => branch.vantage ++ onward.flatMap Prod.snd ++ dead

/-- What becomes of a leaf by the number of points, with the dead ones or without them. The three
conditions on these numbers exclude each other, and one of them is always met. -/
def ByNumbers (shape : Shape) (leaf : Leaf Held) (incoming : List Held) : Outcome κ → Prop
  | .extended leaf' => leaf.points.length + incoming.length ≤ shape.leafLimit ∧
      leaf.vantage <+: leaf'.vantage ∧ leaf.stored <+: leaf'.stored ∧
      leaf'.points.Perm (leaf.points ++ incoming)
  | .rebuilt leaf' dead => shape.leafLimit < leaf.points.length + incoming.length ∧
      leaf.live.length + incoming.length ≤ shape.leafLimit ∧
      leaf'.points.Perm (leaf.live ++ incoming) ∧ dead = leaf.dead
  | .promoted branch onward dead => shape.leafLimit < leaf.live.length + incoming.length ∧
      branch.vantage.length = shape.levelsPerNode ∧ branch.children = [] ∧
      (onward.flatMap Prod.snd).length =
        leaf.live.length + incoming.length - shape.levelsPerNode ∧
      (∀ x ∈ onward, x.1 < branch.fanout) ∧
      (branch.vantage ++ onward.flatMap Prod.snd).Perm (leaf.live ++ incoming) ∧ dead = leaf.dead

/-- Whatever becomes of the leaf, no point is lost and none is added. -/
theorem ByNumbers.perm {outcome : Outcome κ} (h : outcome.ByNumbers shape leaf incoming) :
    outcome.points.Perm (leaf.points ++ incoming) := by
  -- live points, new points and dead points, in whichever order they come
  have hall : ((leaf.live ++ incoming) ++ leaf.dead).Perm (leaf.points ++ incoming) := by
    rw [List.append_assoc]
    refine (List.perm_append_comm.append_left _).trans ?_
    rw [← List.append_assoc]
    exact leaf.perm_live_dead.append_right _
  cases outcome with
  | extended leaf' => exact h.2.2.2
  | rebuilt leaf' dead =>
      obtain ⟨-, -, hperm, rfl⟩ := h
      exact (hperm.append_right _).trans hall
  | promoted branch onward dead =>
      obtain ⟨-, -, -, -, -, hperm, rfl⟩ := h
      exact (hperm.append_right _).trans hall

end Outcome

/-- Points that find room are stored behind those that are stored already. -/
theorem exists_store (hroom : leaf.stored.length + incoming.length ≤ shape.leafCap) :
    ∃ leaf', leaf.store shape d incoming = .ok leaf' ∧ leaf'.vantage = leaf.vantage ∧
      leaf.stored <+: leaf'.stored ∧ leaf'.points = leaf.points ++ incoming :=
  ⟨_, store_eq_ok.2 ⟨hroom, rfl⟩, rfl, List.prefix_append _ _,
    by simp [points, measure, Function.comp_def]⟩

/-- A leaf with room for all points is extended. -/
theorem absorb_of_fits (κ : Type) (d : Metric) (h : leaf.InBounds shape)
    (hfits : leaf.points.length + incoming.length ≤ shape.leafLimit) :
    ∃ leaf', leaf.absorb (κ := κ) shape d incoming = .ok (.extended leaf') ∧
      leaf.vantage <+: leaf'.vantage ∧ leaf.stored <+: leaf'.stored ∧
      leaf'.points.Perm (leaf.points ++ incoming) := by
  have hroom := (room_iff incoming h).2 hfits
  obtain ⟨leaf', hstore, hvantage, hstored, hpoints⟩ := exists_store (d := d) hroom
  refine ⟨leaf', ?_, hvantage ▸ List.prefix_append _ _, hstored, ?_⟩
  · simp only [absorb, if_pos hroom, hstore]
    rfl
  · rw [hpoints]
    exact perm_draw shape leaf incoming

/-- A leaf without room for all points gives the dead ones up, and puts the live ones, new ones
first, into a leaf or into a branch. -/
theorem absorb_of_crowded (κ : Type) (d : Metric) (h : leaf.InBounds shape)
    (hlive : ∀ p ∈ incoming, p.live = true)
    (hcrowded : shape.leafLimit < leaf.points.length + incoming.length) :
    ∃ again : List Held, again.Perm (leaf.live ++ incoming) ∧
      leaf.absorb (κ := κ) shape d incoming =
        if again.length ≤ shape.leafLimit then do
          return .rebuilt (← (draw shape {} again).1.store shape d (draw shape {} again).2)
            leaf.dead
        else do
          let (branch, onward) ← (Branch.new shape).absorb shape d again
          return .promoted branch onward leaf.dead := by
  have hroom := mt (room_iff incoming h).1 (Nat.not_le.2 hcrowded)
  refine ⟨_, perm_again shape leaf hlive, ?_⟩
  rw [← dead_draw shape hlive]
  simp only [absorb, if_neg hroom, List.partition_eq_filter_filter]
  rfl

/-- A leaf with room for the live points only is built anew from them. -/
theorem absorb_of_live_fits (κ : Type) (d : Metric) (h : leaf.InBounds shape)
    (hne : incoming ≠ []) (hlive : ∀ p ∈ incoming, p.live = true)
    (hcrowded : shape.leafLimit < leaf.points.length + incoming.length)
    (hfits : leaf.live.length + incoming.length ≤ shape.leafLimit) :
    ∃ leaf', leaf.absorb (κ := κ) shape d incoming = .ok (.rebuilt leaf' leaf.dead) ∧
      leaf'.points.Perm (leaf.live ++ incoming) := by
  obtain ⟨again, hagain, habsorb⟩ := absorb_of_crowded κ d h hlive hcrowded
  have hlimit : again.length ≤ shape.leafLimit := by
    rwa [hagain.length_eq, List.length_append]
  have hnil : again ≠ [] := by
    rintro rfl
    exact hne (List.append_eq_nil_iff.1 hagain.nil_eq.symm).2
  obtain ⟨leaf', hstore, -, -, hpoints⟩ := exists_fill (d := d) hlimit hnil
  refine ⟨leaf', habsorb.trans ?_, hpoints.trans hagain⟩
  rw [if_pos hlimit, hstore]
  rfl

end Leaf

/-- A new branch takes points that are too many for a leaf, and sends all but its vantage points
on. -/
theorem Branch.exists_absorb_new (κ : Type) (hshape : shape.Sound) (hd : d.Sortable)
    (hlimit : shape.leafLimit < incoming.length) :
    ∃ (b : Branch Held κ) (onward : Buckets),
      (new shape).absorb shape d incoming = .ok (b, onward) ∧
      b.vantage.length = shape.levelsPerNode ∧ b.children = [] ∧
      (∀ x ∈ onward, x.1 < b.fanout) ∧ (b.vantage ++ onward.flatMap Prod.snd).Perm incoming := by
  have hlevels := hshape.leafLimit.trans hlimit.le
  have hstarted := sound_started (d := d) (fun _ : κ => []) hlevels
  obtain ⟨⟨b, onward⟩, hcollate⟩ := exists_collate (drawBack shape.levelsPerNode incoming).1
    hshape hd hstarted.levels
  obtain ⟨⟨hb, hvantage, hchildren, -⟩, hperm, -, hne, hroutes⟩ :=
    sound_collate hshape hstarted hcollate
  refine ⟨b, onward, (absorb_new hlevels).trans hcollate, hb.vantage, hchildren, fun x hx => ?_, ?_⟩
  · obtain ⟨p, hp⟩ := List.exists_mem_of_ne_nil _ (hne x hx)
    exact (hroutes x hx p hp).1
  · rw [hvantage]
    exact (hperm.append_left _).trans (List.perm_append_comm.trans (perm_drawBack _ _))

namespace Leaf

/-- A leaf without room for the live points becomes a branch. -/
theorem absorb_of_live_exceeds (κ : Type) (hshape : shape.Sound) (hd : d.Sortable)
    (h : leaf.InBounds shape) (hlive : ∀ p ∈ incoming, p.live = true)
    (hexceeds : shape.leafLimit < leaf.live.length + incoming.length) :
    ∃ (branch : Branch Held κ) (onward : Buckets),
      leaf.absorb shape d incoming = .ok (.promoted branch onward leaf.dead) ∧
      branch.vantage.length = shape.levelsPerNode ∧ branch.children = [] ∧
      (∀ x ∈ onward, x.1 < branch.fanout) ∧
      (branch.vantage ++ onward.flatMap Prod.snd).Perm (leaf.live ++ incoming) := by
  have hcrowded : shape.leafLimit < leaf.points.length + incoming.length :=
    hexceeds.trans_le (Nat.add_le_add_right (List.length_filter_le _ _) _)
  obtain ⟨again, hagain, habsorb⟩ := absorb_of_crowded κ d h hlive hcrowded
  have hlimit : shape.leafLimit < again.length := by
    rwa [hagain.length_eq, List.length_append]
  obtain ⟨branch, onward, hbranch, hvantage, hchildren, hrange, hpoints⟩ :=
    Branch.exists_absorb_new κ hshape hd hlimit
  refine ⟨branch, onward, habsorb.trans ?_, hvantage, hchildren, hrange, hpoints.trans hagain⟩
  rw [if_neg (Nat.not_le.2 hlimit), hbranch]
  rfl

/-- **A leaf takes points by their number.**  With a sortable metric, a leaf within its bounds takes
all live points that it is handed. -/
theorem exists_absorb (κ : Type) (hshape : shape.Sound) (hd : d.Sortable)
    (h : leaf.InBounds shape) (hne : incoming ≠ []) (hlive : ∀ p ∈ incoming, p.live = true) :
    ∃ outcome : Outcome κ, leaf.absorb shape d incoming = .ok outcome ∧
      outcome.ByNumbers shape leaf incoming := by
  rcases Nat.lt_or_ge shape.leafLimit (leaf.points.length + incoming.length) with hcrowded | hfits
  · rcases Nat.lt_or_ge shape.leafLimit (leaf.live.length + incoming.length) with
      hexceeds | hfits
    · obtain ⟨branch, onward, habsorb, hvantage, hchildren, hrange, hperm⟩ :=
        absorb_of_live_exceeds κ hshape hd h hlive hexceeds
      have honward : (onward.flatMap Prod.snd).length =
          leaf.live.length + incoming.length - shape.levelsPerNode := by
        have hsum := hperm.length_eq
        rw [List.length_append, List.length_append] at hsum
        omega
      exact ⟨.promoted branch onward leaf.dead, habsorb, hexceeds, hvantage, hchildren, honward,
        hrange, hperm, rfl⟩
    · obtain ⟨leaf', habsorb, hperm⟩ := absorb_of_live_fits κ d h hne hlive hcrowded hfits
      exact ⟨.rebuilt leaf' leaf.dead, habsorb, hcrowded, hfits, hperm, rfl⟩
  · obtain ⟨leaf', habsorb, hvantage, hstored, hperm⟩ := absorb_of_fits κ d h hfits
    exact ⟨.extended leaf', habsorb, hfits, hvantage, hstored, hperm⟩

end Leaf

namespace Tree

variable {t : Tree} {metric : Metric}

/-- The leaf is new, or it is the node of a tree, with its points looked up. -/
def LeafOf (t : Tree) (leaf : Leaf Held) : Prop :=
  leaf = {} ∨ ∃ s ∈ t.nodes, s.node.lookUp t.points = .ok (.leaf leaf)

/-- A leaf of a tree is within its bounds, and its points are points that nodes hold. -/
theorem Sound.leafOf (h : t.Sound) (hleaf : t.LeafOf leaf) :
    leaf.InBounds t.shape ∧ (leaf.points.map Held.slot).Nodup ∧
      ∀ p ∈ leaf.points, p.slot ∈ t.held := by
  rcases hleaf with rfl | ⟨s, hs, hlooked⟩
  · exact ⟨Leaf.inBounds_empty _, by simp [Leaf.points], by simp [Leaf.points]⟩
  · have hlookUp := h.lookUp_node hs
    have hleaf : s.node.isLeaf = true := by
      cases hnode : s.node with
      | leaf l => rfl
      | branch b =>
          rw [Subtree.looked, hnode] at hlookUp
          rw [hnode, hlookUp] at hlooked
          cases hlooked
    obtain ⟨leaf', hlooked', hsound, -, hslots⟩ := h.looked_leaf hs hleaf
    obtain rfl := Node.leaf.inj (Except.ok.inj (hlooked'.symm.trans hlooked))
    have hheld : ∀ slot ∈ s.node.points, slot ∈ t.held := fun slot hslot =>
      t.perm_held.mem_iff.1 (List.mem_flatMap.2 ⟨s, hs, hslot⟩)
    have hnodup := t.perm_held.nodup_iff.2 (List.nodup_append'.1 h.points.nodup).1
    refine ⟨hsound.inBounds, ?_, fun p hp => hheld _ (hslots ▸ List.mem_map_of_mem hp)⟩
    rw [hslots]
    exact (List.nodup_flatMap.1 hnodup).1 s hs

/-- **The leaves of a reachable tree, and new ones, take points by their number.**  The points need
not be points of the tree, nor the metric its own. -/
theorem Reachable.leaf_by_numbers (h : Reachable shape metric t) (hd : d.Sortable)
    (hleaf : t.LeafOf leaf) (hne : incoming ≠ []) (hlive : ∀ p ∈ incoming, p.live = true)
    (hnew : ∀ p ∈ incoming, p.slot ∉ t.held) (hnodup : (incoming.map Held.slot).Nodup) :
    ∃ outcome : Leaf.Outcome Subtree, leaf.absorb shape d incoming = .ok outcome ∧
      outcome.ByNumbers shape leaf incoming ∧
      outcome.points.Perm (leaf.points ++ incoming) ∧
      (outcome.points.map Held.slot).Nodup := by
  obtain ⟨hsound, rfl, -⟩ := h.sound
  obtain ⟨hbounds, hslots, hheld⟩ := hsound.leafOf hleaf
  obtain ⟨outcome, habsorb, hnumbers⟩ :=
    Leaf.exists_absorb Subtree hsound.shape hd hbounds hne hlive
  refine ⟨outcome, habsorb, hnumbers, hnumbers.perm, (hnumbers.perm.map Held.slot).nodup_iff.2 ?_⟩
  rw [List.map_append]
  refine List.nodup_append'.2 ⟨hslots, hnodup, fun slot hold hslot => ?_⟩
  obtain ⟨p, hp, rfl⟩ := List.mem_map.1 hold
  obtain ⟨q, hq, heq⟩ := List.mem_map.1 hslot
  exact hnew q hq (heq ▸ hheld p hp)

/-- A leaf with a live and a dead point is handed a point for which it has no room. -/
theorem leaf_by_numbers_hamming :
    ∃ t answers, (fresh .smallest hamming).performAll [.addBatch [(1, 1), (2, 2)], .delete 1] =
        .ok (t, answers) ∧
      ∃ leaf : Leaf Held, t.LeafOf leaf ∧ leaf.live.length = 1 ∧ leaf.dead.length = 1 ∧
        2 ∉ t.held ∧ ∃ outcome : Leaf.Outcome Subtree,
          leaf.absorb .smallest hamming [⟨2, { id := 3, value := 3 }⟩] = .ok outcome ∧
            outcome.ByNumbers .smallest leaf [⟨2, { id := 3, value := 3 }⟩] ∧
            outcome.points.Perm (leaf.points ++ [⟨2, { id := 3, value := 3 }⟩]) ∧
            (outcome.points.map Held.slot).Nodup := by
  have hrun : ((fresh .smallest hamming).performAll
      [.addBatch [(1, 1), (2, 2)], .delete 1]).toOption.any (fun r => decide (2 ∉ r.1.held) &&
        r.1.nodes.any fun s => match s.node.lookUp r.1.points with
          | .ok (.leaf leaf) => decide (leaf.live.length = 1 ∧ leaf.dead.length = 1)
          | _ => false) = true := by
    decide +kernel
  obtain ⟨t, answers, hok, hresult⟩ := any_performAll.1 hrun
  obtain ⟨hfree, hnodes⟩ := Bool.and_eq_true_iff.1 hresult
  obtain ⟨s, hs, hnode⟩ := List.any_eq_true.1 hnodes
  split at hnode
  next leaf hlooked =>
    obtain ⟨hlive, hdead⟩ := of_decide_eq_true hnode
    have hleaf : t.LeafOf leaf := .inr ⟨s, hs, hlooked⟩
    exact ⟨t, answers, hok, leaf, hleaf, hlive, hdead, of_decide_eq_true hfree,
      (Reachable.performAll (.fresh Shape.smallest_sound) hok).leaf_by_numbers sortable_hamming
        hleaf (by simp) (by simp [Held.live]) (by simpa using of_decide_eq_true hfree) (by simp)⟩
  next => cases hnode

end Tree

end Vantage
