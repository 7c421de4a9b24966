/-
**A failed flush is undone.**

When a node refuses its points, others have been changed already: points have gone into leaves and
out of them, cuts have been frozen, branches have taken the place of leaves, and new nodes have been
linked. All of this happened in the store where the nodes lie. The journal leads back to the nodes
that lay there before, and the points that waited are given up, so that the tree is what it was when
the last flush had ended, but for the ids that were deleted since.

An epoch is the stretch of a run from one flush to the next: the tree with which it began, the ids
that were deleted in it, and the tree to which it has led.

Main definitions:

* `LinkedTree.NodeHolds` — the slots of the points that nodes hold;
* `LinkedTree.Epoch` — the stretch of a run since the last flush.

Main results:

* `LinkedTree.Shows.get?_eq` — what lies in the store is told by the tree of values;
* `LinkedTree.Epoch.exists_keeps` — **in an epoch the nodes stay**;
* `LinkedTree.Reachable.undoes` — **a failed flush is undone**.
-/

import Vantage.Proofs.Atomicity
import Vantage.Proofs.LinkedRuns

set_option relaxedAutoImplicit false
set_option autoImplicit false

namespace Vantage

namespace LinkedTree

variable {c c' c₀ : LinkedTree} {t t' t₁ : Tree} {shape : Shape} {metric : Metric}
  {gone : List Int64}

/-! ### What lies in the store -/

/-- A node that lies in the store holds the point of a slot. -/
def NodeHolds (c : LinkedTree) (slot : Nat) : Prop :=
  ∃ place cell, c.nodes.get? place = some cell ∧ slot ∈ cell.points

namespace Shows

/-- What lies in the slot of a node of the tree. -/
theorem exists_node (hc : c.Shows t) {slot : Nat} (hslot : slot ∈ t.slots) :
    ∃ root ∈ t.root, ∃ s ∈ root.all, s.slot = slot ∧ c.nodes.get? slot = some s.cell := by
  obtain ⟨root, hroot, hslot⟩ := mem_elim_nil.1 hslot
  obtain ⟨s, hs, hslot⟩ := List.mem_flatMap.1 hslot
  obtain rfl := List.mem_singleton.1 hslot
  exact ⟨root, hroot, s, hs, rfl, hc.nodes root hroot s hs⟩

/-- **What lies in the store is told by the tree of values**: nothing else lies there. -/
theorem get?_eq (hc : c.Shows t) (hc' : c'.Shows t') (h : t.Sound) (h' : t'.Sound)
    (hroot : t'.root = t.root) (slot : Nat) : c'.nodes.get? slot = c.nodes.get? slot := by
  have hslots : t'.slots = t.slots := by rw [Tree.slots, Tree.slots, hroot]
  by_cases hslot : slot ∈ t.slots
  · obtain ⟨root, hmem, s, hs, rfl, hcell⟩ := hc.exists_node hslot
    rw [hcell, hc'.nodes root (hroot ▸ hmem) s hs]
  · rw [(hc.holds h.labels).get?_of_not_mem hslot,
      (hc'.holds h'.labels).get?_of_not_mem (hslots ▸ hslot)]

/-- The nodes of the store hold the points that the nodes of the tree of values do. -/
theorem nodeHolds_iff (hc : c.Shows t) (h : t.Sound) {slot : Nat} :
    c.NodeHolds slot ↔ slot ∈ t.held := by
  constructor
  · rintro ⟨place, cell, hcell, hslot⟩
    obtain ⟨root, hroot, s, hs, rfl, hs'⟩ :=
      hc.exists_node ((hc.holds h.labels).mem_of_get? hcell)
    obtain rfl := Option.some.inj (hcell.symm.trans hs')
    rw [Tree.held, show t.root = some root from hroot]
    rw [Subtree.cell, Node.points_mapChildren] at hslot
    exact Subtree.mem_held hs hslot
  · intro hslot
    obtain ⟨root, hroot, hslot⟩ := mem_elim_nil.1 hslot
    obtain ⟨s, hs, hslot⟩ := List.mem_flatMap.1 hslot
    refine ⟨s.slot, s.cell, hc.nodes root hroot s hs, ?_⟩
    rwa [Subtree.cell, Node.points_mapChildren]

end Shows

/-! ### Epochs -/

/-- **An epoch of a run.**  A run led to the first tree, which had just been flushed; from there it
went on to the second tree without a flush, and deleted the given ids on the way. -/
inductive Epoch (shape : Shape) (metric : Metric) :
    LinkedTree → List Int64 → LinkedTree → Prop where
  | fresh (h : shape.Sound) : Epoch shape metric (fresh shape metric) [] (fresh shape metric)
  | settles {c₀ c c' : LinkedTree} {gone : List Int64} {op : Op} {answer : Answer}
      (h : Epoch shape metric c₀ gone c) (hop : c.perform op = .ok (c', answer))
      (hend : op.Settles c'.toRegistry) : Epoch shape metric c' [] c'
  | step {c₀ c c' : LinkedTree} {gone : List Int64} {op : Op} {answer : Answer}
      (h : Epoch shape metric c₀ gone c) (hop : c.perform op = .ok (c', answer))
      (hend : ¬ op.Settles c'.toRegistry) : Epoch shape metric c₀ (op.deleted answer ++ gone) c'

/-- **In an epoch the nodes stay.** -/
theorem Epoch.exists_keeps (h : Epoch shape metric c₀ gone c) :
    ∃ t₀ t, c₀.Shows t₀ ∧ c.Shows t ∧ t₀.Sound ∧ t.Sound ∧ t₀.prior = ∅ ∧ t₀.Keeps gone t := by
  -- induction on the epoch; the trees of values say what each operation does
  induction h with
  | fresh hshape =>
      have hsound := Tree.sound_fresh hshape metric
      exact ⟨_, _, shows_fresh _ _, shows_fresh _ _, hsound, hsound, rfl, .refl _⟩
  | settles h hop hend ih =>
      obtain ⟨-, t, -, hc, -, hsound, -⟩ := ih
      obtain ⟨t', hop', hc', hsound'⟩ := (hc.perform hsound _).of_eq_ok hop
      rw [hc'.registry] at hend
      exact ⟨t', t', hc', hc', hsound', hsound', (hsound.performs hop').prior hend, .refl _⟩
  | step h hop hend ih =>
      obtain ⟨t₀, t, hc₀, hc, hsound₀, hsound, hprior, hk⟩ := ih
      obtain ⟨t', hop', hc', hsound'⟩ := (hc.perform hsound _).of_eq_ok hop
      rw [hc'.registry] at hend
      refine ⟨t₀, t', hc₀, hc', hsound₀, hsound', hprior, ?_⟩
      exact hk.trans ((hsound.performs hop').keeps hend)

/-- Every reachable tree lies in an epoch. -/
theorem Reachable.exists_epoch (h : Reachable shape metric c) :
    ∃ c₀ gone, Epoch shape metric c₀ gone c := by
  induction h with
  | fresh hshape => exact ⟨_, _, .fresh hshape⟩
  | @step c c' op answer h hop ih =>
      obtain ⟨c₀, gone, hepoch⟩ := ih
      by_cases hend : op.Settles c'.toRegistry
      · exact ⟨_, _, hepoch.settles hop hend⟩
      · exact ⟨_, _, hepoch.step hop hend⟩

/-! ### Failed flushes -/

section undoes

variable {op : Op} {fault : Fault} {dropped : List Entry}

/-- An operation that reports a rolled back batch has rolled it back in the tree of values too. -/
theorem Shows.exists_rollsBack (hc : c.Shows t) (h : t.Sound)
    (hop : c.perform op = .ok (c', .done (.error (.batchRolledBack fault dropped)))) :
    ∃ t₁ t', c'.Shows t' ∧ t'.Sound ∧ t.Keeps [] t₁ ∧ t₁.RollsBack t' := by
  obtain ⟨t', hop', hc', -⟩ := (hc.perform h op).of_eq_ok hop
  obtain ⟨t₁, hk, h', hb⟩ := (h.performs hop').exists_rollsBack
  exact ⟨t₁, t', hc', h', hk, hb⟩

/-- **A failed flush is undone.**  Whatever operation of a reachable tree reports a rolled back
batch, wherever a node has refused and whatever had been done to other nodes by then: the root is
the one before, and so is what lies in every slot of the store of nodes; the points in use are those
that nodes hold, with their entries, and none that waited; nothing waits. In the epoch that ends
there, an id that was not deleted has again the point with which the epoch began, and the point is
live; and if no id was deleted, every search finds what it found then, at the same cost. -/
theorem Reachable.undoes (h : Reachable shape metric c)
    (hop : c.perform op = .ok (c', .done (.error (.batchRolledBack fault dropped)))) :
    c'.root = c.root ∧
      (∀ slot, c'.nodes.get? slot = c.nodes.get? slot) ∧
      (∀ slot, c'.points.Occupied slot ↔ c.NodeHolds slot) ∧
      (∀ slot, c.NodeHolds slot →
        (c'.points.get? slot).map Point.entry = (c.points.get? slot).map Point.entry) ∧
      (∀ slot ∈ c.arrivals, ¬ c'.points.Occupied slot) ∧
      c'.pending = 0 ∧
      (∃ c₀ gone, Epoch shape metric c₀ gone c) ∧
      ∀ c₀ gone, Epoch shape metric c₀ gone c →
        (∀ (id : Int64) slot, id ∉ gone → c₀.ids[id]? = some slot →
          c'.ids[id]? = some slot ∧
            ∃ p, c'.points.get? slot = some p ∧ p.id = id ∧ p.live = true) ∧
        (gone = [] → ∀ target radius, c'.search target radius = c₀.search target radius) := by
  obtain ⟨t, ht, hc⟩ := h.exists_shows
  have hsound := ht.sound.1
  -- the batch was registered, which keeps the nodes, and then rolled back
  obtain ⟨t₁, t', hc', hsound', hk, hb⟩ := hc.exists_rollsBack hsound hop
  have hroot : t'.root = t.root := hb.root.trans hk.root
  have hoccupied : ∀ slot, c'.points.Occupied slot ↔ slot ∈ t.held := by
    intro slot
    rw [hc'.registry, hb.points.occupied, hk.held]
  refine ⟨?_, hc.get?_eq hc' hsound hsound' hroot, fun slot => ?_, fun slot hslot => ?_,
    fun slot hslot hocc => ?_, ?_, h.exists_epoch, fun c₀ gone hepoch => ?_⟩
  · rw [hc'.top, hc.top, hroot]
  · rw [hoccupied, hc.nodeHolds_iff hsound]
  · rw [hc.nodeHolds_iff hsound] at hslot
    rw [hc'.registry, hc.registry, hb.entries slot (hk.held ▸ hslot), hk.entries slot hslot]
  · rw [hc.registry] at hslot
    exact hsound.not_mem_arrivals ((hoccupied slot).1 hocc) hslot
  · rw [hc'.registry, Registry.pending, hb.arrivals]
    rfl
  · obtain ⟨t₀, t, hc₀, hc, hsound₀, hsound, hprior, hk₀⟩ := hepoch.exists_keeps
    obtain ⟨t₁, t', hc', hsound', hk, hb⟩ := hc.exists_rollsBack hsound hop
    refine ⟨fun id slot hid hslot => ?_, ?_⟩
    · rw [hc₀.registry] at hslot
      have hids : t'.ids[id]? = some slot := by
        rw [hk₀.ids_of_rollsBack hprior hk hb, if_neg hid, hslot]
      rw [hc'.registry]
      exact ⟨hids, hsound'.exists_point hids⟩
    · rintro rfl target radius
      rw [hc'.search_eq hsound', hc₀.search_eq hsound₀]
      exact hk₀.search_of_rollsBack hprior hsound₀ hk hb hsound' target radius

/-- A leaf has given way to a new branch when its sibling refuses three points that it cannot tell
apart, and two entries had been replaced. The slot of the new branch is free again, and everything
else is as before. -/
theorem undoes_promoted :
    ∃ c c', Reachable .smallest
        (fun a b => if 64 ≤ a ∧ 64 ≤ b then Float.nan else hamming a b) c ∧
      c.perform (.addBatch [(2, 4), (3, 6), (5, 8), (6, 127), (7, 95), (8, 79)]) =
        .ok (c', .done (.error (.batchRolledBack (.incompleteCollation 0 0 3)
          [(2, 4), (3, 6), (5, 8), (6, 127), (7, 95), (8, 79)]))) ∧
      c.nodes.size = 3 ∧ c.nodes.cells.size < c'.nodes.cells.size ∧
      c'.root = c.root ∧ (∀ slot, c'.nodes.get? slot = c.nodes.get? slot) ∧ c'.pending = 0 ∧
      (∀ (id : Int64) slot, c.ids[id]? = some slot → c'.ids[id]? = some slot) ∧
      ∀ target radius, c'.search target radius = c.search target radius := by
  have hrun : ((fresh .smallest
      fun a b => if 64 ≤ a ∧ 64 ≤ b then Float.nan else hamming a b).perform
        (.addBatch [(1, 112), (2, 1), (3, 2), (4, 0)])).toOption.any (fun r =>
      (r.1.perform (.addBatch [(2, 4), (3, 6), (5, 8), (6, 127), (7, 95), (8, 79)])).toOption.any
        fun r' => decide (r'.2.fault? = some (.batchRolledBack (.incompleteCollation 0 0 3)
            [(2, 4), (3, 6), (5, 8), (6, 127), (7, 95), (8, 79)]) ∧
          r.1.nodes.size = 3 ∧ r.1.nodes.cells.size < r'.1.nodes.cells.size)) = true := by
    decide +kernel
  obtain ⟨⟨c, answer⟩, hfirst, hrun⟩ := any_toOption.1 hrun
  obtain ⟨⟨c', answer'⟩, hsecond, hrun⟩ := any_toOption.1 hrun
  obtain ⟨hfault, hsize, hmade⟩ := of_decide_eq_true hrun
  obtain rfl := Answer.fault?_eq_some.1 hfault
  have hreach := (Reachable.fresh Shape.smallest_sound).step hfirst
  obtain ⟨hroot, hnodes, -, -, -, hpending, -, hrestored⟩ := hreach.undoes hsecond
  obtain ⟨hids, hsearch⟩ :=
    hrestored c [] (.settles (.fresh Shape.smallest_sound) hfirst trivial)
  exact ⟨c, c', hreach, hsecond, hsize, hmade, hroot, hnodes, hpending,
    fun id slot hslot => (hids id slot List.not_mem_nil hslot).1, hsearch rfl⟩

end undoes

end LinkedTree

end Vantage
