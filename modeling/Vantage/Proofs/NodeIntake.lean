/-
**What a node does with the points that it is handed.**

A node is sound when what it keeps beside its points is true of them: a leaf keeps the distances of
its vantage points to its stored points, and a branch has every point below a child where its cuts
route that point. Handing points to a sound node gives a sound node, and every point is afterwards
in the node, on its way to a child, or dead and out of the tree.

Main definitions:

* `Leaf.Sound`, `Branch.Sound`, `Node.Sound` — sound nodes; how points are referred to is left
  open, and so is what is below a child;
* `Node.Routes` — a node sends a point to the child of an index;
* `Intake.Sound` — nothing is lost, and what goes on goes where it is routed.

Main results:

* `Node.sound_absorb`, `Node.sound_create` — **handing points to a place keeps its node sound**;
* `Node.exists_absorb`, `Node.exists_create` — with a sortable metric no fault is reported.
-/

import Vantage.Placement
import Vantage.Proofs.Routing
import Vantage.Shape.Lemmas

set_option relaxedAutoImplicit false
set_option autoImplicit false

namespace Vantage

variable {π κ : Type} {shape : Shape} {d : Metric}

/-! ### Sound nodes -/

/-- The leaf is within its bounds, stores points only beside a full list of vantage points, and
keeps the right distances. -/
structure Leaf.Sound (shape : Shape) (d : Metric) (value : π → UInt64) (leaf : Leaf π) : Prop where
  vantage_le : leaf.vantage.length ≤ shape.pathLength
  stored_le : leaf.stored.length ≤ shape.leafCap
  full : leaf.stored ≠ [] → leaf.vantage.length = shape.pathLength
  gaps : ∀ s ∈ leaf.stored, s.gaps = leaf.vantage.map fun v => d (value v) (value s.point)

namespace Branch

/-- The cuts of the branch put a fingerprint below the child of an index. -/
def Routes (d : Metric) (parts : Nat) (value : π → UInt64) (b : Branch π κ) (index : Nat)
    (x : UInt64) : Prop :=
  RoutesFrom parts index (b.levels.zip (b.vantage.map fun v => d (value v) x))

/-- The branch has all its vantage points and levels, and every fingerprint below a child is
routed there. -/
structure Sound (shape : Shape) (d : Metric) (value : π → UInt64) (below : κ → List UInt64)
    (b : Branch π κ) : Prop where
  fanout : b.fanout = shape.fanout
  vantage : b.vantage.length = shape.levelsPerNode
  length : b.levels.length = shape.levelsPerNode
  levels : ∀ level ∈ b.levels, level.Sound d shape.branchFactor
  ascending : Keyed.Ascending b.children
  inRange : ∀ x ∈ b.children, x.1 < shape.fanout
  routed : ∀ x ∈ b.children, ∀ v ∈ below x.2, b.Routes d shape.branchFactor value x.1 v

end Branch

namespace Node

/-- A sound node; a leaf holds a point at least. -/
def Sound (shape : Shape) (d : Metric) (value : π → UInt64) (below : κ → List UInt64) :
    Node π κ → Prop
  | .leaf l => l.Sound shape d value ∧ l.points ≠ []
  | .branch b => b.Sound shape d value below

/-- The node sends a fingerprint to the child of an index. -/
def Routes (shape : Shape) (d : Metric) (value : π → UInt64) (node : Node π κ) (index : Nat)
    (x : UInt64) : Prop :=
  match node with
  | .leaf _ => False
  | .branch b => index < b.fanout ∧ b.Routes d shape.branchFactor value index x

end Node

/-- Points handed to a place are kept by its node, go on where they are routed, or were dead
already; so are the points that the node had. A branch always sends some of them on. -/
structure Intake.Sound (shape : Shape) (d : Metric) (below : κ → List UInt64)
    (kids : List (Nat × κ)) (given : List Held) (i : Intake κ) : Prop where
  node : i.node.Sound shape d Held.value below
  perm : (i.node.points ++ (i.onward.flatMap Prod.snd ++ i.dead)).Perm given
  dead : ∀ h ∈ i.dead, h.live = false
  children : i.node.children = kids
  ascending : Keyed.Ascending i.onward
  nonempty : ∀ x ∈ i.onward, x.2 ≠ []
  routes : ∀ x ∈ i.onward, ∀ p ∈ x.2, i.node.Routes shape d Held.value x.1 p.value
  sends : i.node.isLeaf = false → i.onward ≠ []

/-! ### Leaves -/

namespace Leaf

variable {leaf : Leaf Held} {incoming : List Held}

theorem draw_eq (shape : Shape) (leaf : Leaf Held) (incoming : List Held) :
    leaf.draw shape incoming =
      ({ leaf with vantage := leaf.vantage ++
          (drawBack (shape.pathLength - leaf.vantage.length) incoming).2 },
        (drawBack (shape.pathLength - leaf.vantage.length) incoming).1) := rfl

/-- Drawing vantage points moves points into the leaf and loses none. -/
theorem perm_draw (shape : Shape) (leaf : Leaf Held) (incoming : List Held) :
    ((leaf.draw shape incoming).1.points ++ (leaf.draw shape incoming).2).Perm
      (leaf.points ++ incoming) := by
  have hdraw := perm_drawBack (shape.pathLength - leaf.vantage.length) incoming
  rw [draw_eq]
  simp only [points, List.append_assoc]
  refine List.Perm.append_left _ ?_
  refine List.perm_append_comm_assoc _ _ _ |>.trans (List.Perm.append_left _ ?_)
  exact List.perm_append_comm.trans hdraw

/-- Points are left over only when the leaf has all its vantage points. -/
theorem length_draw (incoming : List Held) (h : leaf.vantage.length ≤ shape.pathLength) :
    (leaf.draw shape incoming).1.vantage.length =
        min shape.pathLength (leaf.vantage.length + incoming.length) ∧
      (leaf.draw shape incoming).2.length =
        incoming.length - (shape.pathLength - leaf.vantage.length) := by
  rw [draw_eq]
  refine ⟨?_, length_drawBack_fst _ _⟩
  rw [List.length_append, length_drawBack_snd]
  omega

/-- Drawing vantage points keeps a leaf sound. -/
theorem Sound.draw (incoming : List Held) (h : leaf.Sound shape d Held.value) :
    (leaf.draw shape incoming).1.Sound shape d Held.value := by
  obtain ⟨hlength, -⟩ := length_draw incoming h.vantage_le
  refine ⟨by rw [hlength]; exact Nat.min_le_left _ _, h.stored_le, fun hne => ?_, fun s hs => ?_⟩
  · rw [hlength, h.full hne]
    exact Nat.min_eq_left (Nat.le_add_right _ _)
  · -- a leaf that stores a point has nothing to draw
    have hfull := h.full (List.ne_nil_of_mem hs)
    rw [h.gaps s hs, draw_eq, hfull, Nat.sub_self]
    simp [drawBack]

/-- Storing points beside a full list of vantage points keeps a leaf sound. -/
theorem Sound.store (h : leaf.Sound shape d Held.value)
    (hfull : incoming ≠ [] → leaf.vantage.length = shape.pathLength)
    (hroom : leaf.stored.length + incoming.length ≤ shape.leafCap) :
    ∃ l, leaf.store shape d incoming = .ok l ∧ l.Sound shape d Held.value ∧
      l.points = leaf.points ++ incoming := by
  refine ⟨_, if_pos hroom, ⟨h.vantage_le, ?_, fun hne => ?_, fun s hs => ?_⟩, ?_⟩
  · simpa using hroom
  · by_cases hin : incoming = []
    · exact h.full (by simpa [hin] using hne)
    · exact hfull hin
  · rcases List.mem_append.1 hs with hs | hs
    · exact h.gaps s hs
    · obtain ⟨p, -, rfl⟩ := List.mem_map.1 hs
      rfl
  · simp [points, measure, Function.comp_def]

theorem sound_empty (shape : Shape) (d : Metric) : ({} : Leaf Held).Sound shape d Held.value where
  vantage_le := Nat.zero_le _
  stored_le := Nat.zero_le _
  full h := absurd rfl h
  gaps s hs := absurd hs (by simp)

/-- Points that fit into a leaf can be stored once the vantage points have been drawn. -/
theorem Sound.full_of_draw (incoming : List Held) (h : leaf.Sound shape d Held.value) :
    (leaf.draw shape incoming).2 ≠ [] →
      (leaf.draw shape incoming).1.vantage.length = shape.pathLength := by
  intro hne
  obtain ⟨hlength, hrest⟩ := length_draw incoming h.vantage_le
  have hpos := List.length_pos_of_ne_nil hne
  have hle := h.vantage_le
  omega

end Leaf

/-! ### Branches -/

namespace Branch

variable {below : κ → List UInt64} {b b' : Branch Held κ} {incoming : List Held} {onward : Buckets}

/-- The bucket in which points start. -/
def startOf (incoming : List Held) : Buckets := if incoming.isEmpty then [] else [(0, incoming)]

theorem flatMap_startOf (incoming : List Held) :
    (startOf incoming).flatMap Prod.snd = incoming := by
  cases incoming <;> simp [startOf]

theorem ascending_startOf (incoming : List Held) : Keyed.Ascending (startOf incoming) := by
  cases incoming
  · exact .nil
  · exact List.pairwise_singleton _ _

theorem mem_startOf {incoming : List Held} {x : Nat × List Held} (h : x ∈ startOf incoming) :
    x.1 = 0 ∧ x.2 ≠ [] := by
  cases incoming with
  | nil => exact absurd h (by simp [startOf])
  | cons p rest =>
      obtain rfl := List.mem_singleton.1 h
      exact ⟨rfl, by simp⟩

/-- Routing points gives a sound branch that has gained nothing but cuts, and sends each point to
a child that exists or has a place. -/
theorem sound_collate (hshape : shape.Sound) (hb : b.Sound shape d Held.value below)
    (h : b.collate d shape.branchFactor incoming = .ok (b', onward)) :
    (b'.Sound shape d Held.value below ∧ b'.vantage = b.vantage ∧ b'.children = b.children ∧
        List.Forall₂ Level.Extends b.levels b'.levels) ∧
      (onward.flatMap Prod.snd).Perm incoming ∧ Keyed.Ascending onward ∧
      (∀ x ∈ onward, x.2 ≠ []) ∧
      ∀ x ∈ onward, ∀ p ∈ x.2,
        x.1 < b'.fanout ∧ b'.Routes d shape.branchFactor Held.value x.1 p.value := by
  obtain ⟨⟨levels, buckets⟩, hcollate, h⟩ := bind_eq_ok.1 h
  obtain ⟨rfl, rfl⟩ := Prod.mk.inj (Except.ok.inj h)
  have hparts : 0 < shape.branchFactor := Nat.lt_of_lt_of_le (by decide) hshape.branchFactor
  have hzip : b.vantage.length = b.levels.length := hb.vantage.trans hb.length.symm
  have hlevels := sound_collateFrom hzip hb.levels hcollate
  obtain ⟨-, hext, hrouted⟩ := routed_collateFrom hparts hzip
    (fun level hlevel => (hb.levels level hlevel).length) hcollate
  have hlength : levels.length = shape.levelsPerNode := hext.length_eq.symm.trans hb.length
  refine ⟨⟨⟨hb.fanout, hb.vantage, hlength, hlevels, hb.ascending, hb.inRange, ?_⟩, rfl, rfl,
    hext⟩, ?_, ?_, ?_, ?_⟩
  · intro x hx v hv
    exact (hb.routed x hx v hv).mono hext
  · exact hrouted.perm.trans (.of_eq (flatMap_startOf incoming))
  · exact hrouted.ascending (ascending_startOf incoming)
  · exact hrouted.nonempty fun x hx => (mem_startOf hx).2
  · intro x hx p hp
    refine ⟨?_, hrouted.routes x hx p hp⟩
    obtain ⟨y, hy, hyx, -⟩ := hrouted.parent x hx p hp
    -- all points start in bucket zero, so the levels name an index below the number of children
    have hzero : x.1 / shape.branchFactor ^ shape.levelsPerNode = 0 := by
      rw [← (mem_startOf hy).1, hyx, hlength]
      rfl
    change x.1 < b.fanout
    rw [hb.fanout, hshape.fanout_eq]
    exact (Nat.div_eq_zero_iff_lt (Nat.pow_pos hparts)).1 hzero

theorem exists_collate (incoming : List Held) (hshape : shape.Sound) (hd : d.Sortable)
    (hlevels : ∀ level ∈ b.levels, level.Sound d shape.branchFactor) :
    ∃ r, b.collate d shape.branchFactor incoming = .ok r := by
  obtain ⟨⟨levels, buckets⟩, h⟩ :=
    exists_collateFrom hshape.branchFactor hd b.vantage hlevels 0 (startOf incoming)
  exact ⟨({ b with levels }, buckets), bind_eq_ok.2 ⟨_, h, rfl⟩⟩

/-- A branch that has all its vantage points draws none. -/
theorem absorb_of_full (h : b.vantage.length = shape.levelsPerNode) :
    b.absorb shape d incoming = b.collate d shape.branchFactor incoming := by
  simp [absorb, drawBack, h]

/-- A new branch with the vantage points that it draws. -/
def started (shape : Shape) (incoming : List Held) : Branch Held κ :=
  { (new shape : Branch Held κ) with vantage := (drawBack shape.levelsPerNode incoming).2 }

theorem absorb_new (h : shape.levelsPerNode ≤ incoming.length) :
    (new shape : Branch Held κ).absorb shape d incoming =
      (started shape incoming : Branch Held κ).collate d shape.branchFactor
        (drawBack shape.levelsPerNode incoming).1 := by
  have hlength : ¬ (drawBack shape.levelsPerNode incoming).2.length < shape.levelsPerNode := by
    rw [length_drawBack_snd]
    omega
  simp [absorb, new, started, hlength]

theorem sound_started (below : κ → List UInt64) (h : shape.levelsPerNode ≤ incoming.length) :
    (started shape incoming : Branch Held κ).Sound shape d Held.value below where
  fanout := rfl
  vantage := by
    rw [started, length_drawBack_snd]
    exact Nat.min_eq_left h
  length := by simp [started, new]
  levels level hlevel := by
    obtain ⟨n, -, rfl⟩ := List.mem_map.1 hlevel
    exact Level.sound_of_frozen_nil _
  ascending := .nil
  inRange x hx := absurd hx (by simp [started, new])
  routed x hx := absurd hx (by simp [started, new])

end Branch

/-! ### Intake -/

section intake

variable {below : κ → List UInt64} {incoming : List Held}

theorem Branch.points_ne_nil {value : π → UInt64} {b : Branch π κ} (hshape : shape.Sound)
    (hb : b.Sound shape d value below) : (Node.branch b).points ≠ [] := by
  have hpos := hshape.levelsPerNode
  have hlength : (Node.branch b).points.length = b.vantage.length := by
    simp [Node.points, Node.vantage, Node.stored]
  intro hnil
  rw [hnil, hb.vantage, List.length_nil] at hlength
  omega

/-- A sound node holds a point at least. -/
theorem Node.Sound.points_ne_nil {value : π → UInt64} {node : Node π κ} (hshape : shape.Sound)
    (h : node.Sound shape d value below) : node.points ≠ [] := by
  cases node with
  | leaf l => exact h.2
  | branch b => exact Branch.points_ne_nil hshape h

/-- What a branch makes of points. -/
theorem Branch.sound_intake {b b' : Branch Held κ} {onward : Buckets} (hshape : shape.Sound)
    (hb : b.Sound shape d Held.value below) (hne : incoming ≠ []) (fresh : Bool)
    (dead : List Held) (hdead : ∀ h ∈ dead, h.live = false) {kids : List (Nat × κ)}
    {given : List Held} (hkids : b.children = kids)
    (hgiven : (b.vantage ++ (incoming ++ dead)).Perm given)
    (h : b.collate d shape.branchFactor incoming = .ok (b', onward)) :
    Intake.Sound shape d below kids given { node := .branch b', fresh, onward, dead } := by
  obtain ⟨⟨hsound, hvantage, hchildren, -⟩, hperm, hasc, hbuckets, hroutes⟩ :=
    sound_collate hshape hb h
  refine ⟨hsound, ?_, hdead, hchildren.trans hkids, hasc, hbuckets, hroutes, fun _ hnil => hne ?_⟩
  · simp only [Node.points, Node.vantage, Node.stored, List.append_nil, hvantage]
    exact ((hperm.append_right dead).append_left b.vantage).trans hgiven
  · rw [show onward = [] from hnil] at hperm
    exact hperm.nil_eq.symm

/-- Points that are too many for a leaf are not all drawn as vantage points of a branch. -/
theorem rest_ne_nil (hshape : shape.Sound) (hlimit : ¬ incoming.length ≤ shape.leafLimit) :
    (drawBack shape.levelsPerNode incoming).1 ≠ [] := by
  have hlevels := hshape.leafLimit
  refine List.ne_nil_of_length_pos ?_
  rw [length_drawBack_fst]
  omega

/-- What a leaf makes of points, when it stays a leaf. -/
theorem Leaf.sound_intake {l : Leaf Held} (hl : l.Sound shape d Held.value) (fresh : Bool)
    (dead : List Held) (hdead : ∀ h ∈ dead, h.live = false) (hne : l.points ≠ [])
    {given : List Held} (hgiven : (l.points ++ dead).Perm given) :
    Intake.Sound shape d below [] given { node := .leaf l, fresh, dead } :=
  ⟨⟨hl, hne⟩, hgiven, hdead, rfl, .nil, by simp, by simp, by simp [Node.isLeaf]⟩

/-- What a leaf without points makes of points that fit into it. -/
theorem Leaf.exists_fill (hfits : incoming.length ≤ shape.leafLimit)
    (hne : incoming ≠ []) :
    ∃ l, (draw shape {} incoming).1.store shape d (draw shape {} incoming).2 = .ok l ∧
      l.Sound shape d Held.value ∧ l.points ≠ [] ∧ l.points.Perm incoming := by
  have hempty := sound_empty shape d
  obtain ⟨-, hrest⟩ := length_draw incoming hempty.vantage_le
  have hroom : (draw shape {} incoming).1.stored.length + (draw shape {} incoming).2.length ≤
      shape.leafCap := by
    have hlimit : shape.leafLimit = shape.leafCap + shape.pathLength := rfl
    have hstored : (draw shape {} incoming).1.stored.length = 0 := rfl
    have hvantage : ({} : Leaf Held).vantage.length = 0 := rfl
    omega
  obtain ⟨l, hl, hsound, hpoints⟩ :=
    (hempty.draw incoming).store (hempty.full_of_draw incoming) hroom
  have hperm : l.points.Perm incoming := by
    rw [hpoints]
    exact perm_draw shape {} incoming
  refine ⟨l, hl, hsound, fun hnil => hne ?_, hperm⟩
  rw [hnil] at hperm
  exact hperm.nil_eq.symm

/-- The points of a leaf that gives them up, and the points that it was handed: the dead ones, and
those that are placed anew. -/
theorem Leaf.perm_sorted (leaf : Leaf Held) (rest : List Held) :
    ((rest ++ leaf.points.filter Held.live) ++ leaf.points.filter (not ∘ Held.live)).Perm
      (leaf.points ++ rest) := by
  rw [List.append_assoc]
  exact ((List.filter_append_perm _ _).append_left rest).trans List.perm_append_comm

/-- A leaf without room gives up its points; the live ones are placed anew with the new ones. -/
theorem Leaf.absorb_of_no_room {l leaf : Leaf Held} {rest : List Held}
    (hdraw : l.draw shape incoming = (leaf, rest))
    (hroom : ¬ leaf.stored.length + rest.length ≤ shape.leafCap) :
    (Node.leaf l : Node Held κ).absorb shape d incoming =
      let again := rest ++ leaf.points.filter Held.live
      let dead := leaf.points.filter (not ∘ Held.live)
      if again.length ≤ shape.leafLimit then do
        let l ← (draw shape {} again).1.store shape d (draw shape {} again).2
        return ⟨.leaf l, false, [], dead⟩
      else do
        let r ← (Branch.new shape).absorb shape d again
        return ⟨.branch r.1, true, r.2, dead⟩ := by
  simp only [Node.absorb, absorb, hdraw, if_neg hroom, List.partition_eq_filter_filter]
  split
  · simp only [bind_assoc]
    rfl
  · simp only [bind_assoc]
    rfl

/-- **Handing points to a leaf.**  What goes wrong can only be that a branch cannot route them. -/
theorem Leaf.absorb_cases (below : κ → List UInt64) {l : Leaf Held} (hshape : shape.Sound)
    (hl : l.Sound shape d Held.value) (hne : incoming ≠ []) :
    (∃ i : Intake κ, (Node.leaf l).absorb shape d incoming = .ok i ∧ i.node.isLeaf = true ∧
        i.fresh = false ∧ i.Sound shape d below [] (l.points ++ incoming)) ∨
      ∃ (b : Branch Held κ) (rest dead : List Held), b.Sound shape d Held.value below ∧
        b.levels = (Branch.new shape : Branch Held κ).levels ∧ b.children = [] ∧ rest ≠ [] ∧
        ((∀ h ∈ incoming, h.live = true) → ∀ h ∈ rest, h.live = true) ∧
        (∀ h ∈ dead, h.live = false) ∧
        (b.vantage ++ (rest ++ dead)).Perm (l.points ++ incoming) ∧
        (Node.leaf l).absorb shape d incoming = do
          let r ← b.collate d shape.branchFactor rest
          return { node := .branch r.1, fresh := true, onward := r.2, dead } := by
  have hperm := perm_draw shape l incoming
  have hsound := hl.draw incoming
  have hfull := hl.full_of_draw incoming
  cases hdraw : l.draw shape incoming with
  | mk leaf rest =>
      rw [hdraw] at hperm hsound hfull
      by_cases hroom : leaf.stored.length + rest.length ≤ shape.leafCap
      · -- the points find room beside the stored ones
        obtain ⟨l', hstore, hl', hpoints⟩ := hsound.store hfull hroom
        have hgiven : l'.points.Perm (l.points ++ incoming) := by
          rw [hpoints]
          exact hperm
        refine .inl ⟨{ node := .leaf l', fresh := false }, ?_, rfl, rfl,
          Leaf.sound_intake hl' false [] (by simp) (fun hnil => hne ?_)
            (by rwa [List.append_nil])⟩
        · simp [Node.absorb, absorb, hdraw, hroom, hstore]
        · rw [hnil] at hgiven
          exact (List.append_eq_nil_iff.1 hgiven.nil_eq.symm).2
      · -- the leaf gives up its points, of which the dead ones are dropped
        have hsorted := (leaf.perm_sorted rest).trans hperm
        have hrest : rest ≠ [] := fun hnil => hroom (by simpa [hnil] using hsound.stored_le)
        have hdead : ∀ h ∈ leaf.points.filter (not ∘ Held.live), h.live = false :=
          fun h hh => by simpa using (List.mem_filter.1 hh).2
        have hall : rest ++ leaf.points.filter Held.live ≠ [] := by simp [hrest]
        -- what is left of the new points is live when they are, and so is what the leaf gives up
        have hlive : (∀ h ∈ incoming, h.live = true) →
            ∀ h ∈ rest ++ leaf.points.filter Held.live, h.live = true := by
          intro hincoming h hh
          rcases List.mem_append.1 hh with hh | hh
          · have hrest : rest = (l.draw shape incoming).2 := by rw [hdraw]
            rw [hrest, draw_eq] at hh
            exact hincoming h (List.mem_of_mem_take hh)
          · exact (List.mem_filter.1 hh).2
        rw [absorb_of_no_room hdraw hroom]
        generalize leaf.points.filter (not ∘ Held.live) = dead at hsorted hdead ⊢
        generalize rest ++ leaf.points.filter Held.live = again at hsorted hall hlive ⊢
        by_cases hlimit : again.length ≤ shape.leafLimit
        · -- the live points and the new ones fit into a leaf that is built anew
          obtain ⟨l', hstore, hl', hne', hpoints⟩ := exists_fill (d := d) hlimit hall
          refine .inl ⟨{ node := .leaf l', fresh := false, dead }, ?_, rfl, rfl,
            Leaf.sound_intake hl' false dead hdead hne'
              ((hpoints.append_right dead).trans hsorted)⟩
          rw [if_pos hlimit]
          simp only [hstore]
          rfl
        · -- there are too many, and a branch takes the place of the leaf
          have hlevels : shape.levelsPerNode ≤ again.length :=
            hshape.leafLimit.trans (Nat.le_of_not_le hlimit)
          have hdrawn := perm_drawBack shape.levelsPerNode again
          refine .inr ⟨Branch.started shape again, (drawBack shape.levelsPerNode again).1, dead,
            Branch.sound_started below hlevels, rfl, rfl, rest_ne_nil hshape hlimit,
            fun hincoming h hh => hlive hincoming h (List.mem_of_mem_take hh), hdead, ?_, ?_⟩
          · rw [← List.append_assoc]
            exact ((List.perm_append_comm.trans hdrawn).append_right dead).trans hsorted
          · rw [if_neg hlimit, Branch.absorb_new hlevels]

theorem Branch.node_points (b : Branch π κ) : (Node.branch b).points = b.vantage := by
  simp [Node.points, Node.vantage, Node.stored]

namespace Node

variable {node : Node Held κ} {i : Intake κ}

/-- A leaf makes something sound of points, or a branch cannot route them. -/
theorem sound_absorb_leaf (below : κ → List UInt64) {l : Leaf Held} (hshape : shape.Sound)
    (hl : l.Sound shape d Held.value) (hne : incoming ≠ [])
    (h : (Node.leaf l).absorb shape d incoming = .ok i) :
    i.Sound shape d below [] (l.points ++ incoming) := by
  rcases Leaf.absorb_cases below hshape hl hne with ⟨i', hi', -, -, hsound⟩ |
    ⟨b, rest, dead, hb, -, hchildren, hrest, -, hdead, hgiven, heq⟩
  · obtain rfl := Except.ok.inj (h.symm.trans hi')
    exact hsound
  · obtain ⟨⟨b', onward⟩, hcollate, hok⟩ := bind_eq_ok.1 (heq.symm.trans h)
    obtain rfl := Except.ok.inj hok
    exact Branch.sound_intake hshape hb hrest true dead hdead hchildren hgiven hcollate

theorem exists_absorb_leaf (κ : Type) {l : Leaf Held} (hshape : shape.Sound) (hd : d.Sortable)
    (hl : l.Sound shape d Held.value) (hne : incoming ≠ []) :
    ∃ i : Intake κ, (Node.leaf l).absorb shape d incoming = .ok i := by
  rcases Leaf.absorb_cases (fun _ : κ => []) hshape hl hne with ⟨i, hi, -⟩ |
    ⟨b, rest, dead, hb, -, -, -, -, -, -, heq⟩
  · exact ⟨i, hi⟩
  · obtain ⟨r, hr⟩ := Branch.exists_collate rest hshape hd hb.levels
    exact ⟨_, heq.trans (bind_eq_ok.2 ⟨r, hr, rfl⟩)⟩

/-- **Handing points to a sound node.** -/
theorem sound_absorb (hshape : shape.Sound) (hn : node.Sound shape d Held.value below)
    (hne : incoming ≠ []) (h : node.absorb shape d incoming = .ok i) :
    i.Sound shape d below node.children (node.points ++ incoming) := by
  cases node with
  | leaf l => exact sound_absorb_leaf below hshape hn.1 hne h
  | branch b =>
      obtain ⟨⟨b', onward⟩, hcollate, hok⟩ := bind_eq_ok.1 h
      obtain rfl := Except.ok.inj hok
      rw [Branch.absorb_of_full (Branch.Sound.vantage hn)] at hcollate
      refine Branch.sound_intake hshape hn hne false [] (by simp) rfl ?_ hcollate
      rw [Branch.node_points, List.append_nil]

/-- With a sortable metric a sound node takes all points. -/
theorem exists_absorb (hshape : shape.Sound) (hd : d.Sortable)
    (hn : node.Sound shape d Held.value below) (hne : incoming ≠ []) :
    ∃ i, node.absorb shape d incoming = .ok i := by
  cases node with
  | leaf l => exact exists_absorb_leaf κ hshape hd hn.1 hne
  | branch b =>
      obtain ⟨r, hr⟩ := Branch.exists_collate incoming hshape hd
        (Branch.Sound.levels hn)
      rw [← Branch.absorb_of_full (Branch.Sound.vantage hn)] at hr
      exact ⟨_, bind_eq_ok.2 ⟨r, hr, rfl⟩⟩

theorem create_eq (shape : Shape) (d : Metric) (incoming : List Held) :
    (create shape d incoming : Except Fault (Intake κ)) =
      if incoming.length ≤ shape.leafLimit then do
        return { ← (Node.leaf {} : Node Held κ).absorb shape d incoming with fresh := true }
      else do
        let r ← (Branch.new shape).absorb shape d incoming
        return { node := .branch r.1, fresh := true, onward := r.2 } := by
  unfold create
  split
  · rfl
  · simp only [absorb, bind_assoc]
    rfl

/-- **Making a node for points that have none.** -/
theorem sound_create (hshape : shape.Sound) (hne : incoming ≠ [])
    (h : create shape d incoming = .ok i) :
    i.fresh = true ∧ i.Sound shape d below [] incoming := by
  rw [create_eq] at h
  split at h
  next hfits =>
    obtain ⟨i', hi', hok⟩ := bind_eq_ok.1 h
    obtain rfl := Except.ok.inj hok
    obtain ⟨hnode, hperm, hdead, hchildren, hasc, hbuckets, hroutes, hsends⟩ :=
      sound_absorb_leaf below hshape (Leaf.sound_empty shape d) hne hi'
    exact ⟨rfl, hnode, hperm, hdead, hchildren, hasc, hbuckets, hroutes, hsends⟩
  next hlimit =>
    have hlevels := hshape.leafLimit.trans (Nat.le_of_not_le hlimit)
    obtain ⟨⟨b, onward⟩, hcollate, hok⟩ := bind_eq_ok.1 h
    obtain rfl := Except.ok.inj hok
    rw [Branch.absorb_new hlevels] at hcollate
    refine ⟨rfl, Branch.sound_intake hshape (Branch.sound_started below hlevels)
      (rest_ne_nil hshape hlimit) true [] (by simp) rfl ?_ hcollate⟩
    rw [List.append_nil]
    exact List.perm_append_comm.trans (perm_drawBack _ _)

theorem exists_create (hshape : shape.Sound) (hd : d.Sortable) (hne : incoming ≠ []) :
    ∃ i : Intake κ, create shape d incoming = .ok i := by
  rw [create_eq]
  split
  next =>
    obtain ⟨i, hi⟩ := exists_absorb_leaf κ hshape hd (Leaf.sound_empty shape d) hne
    exact ⟨_, bind_eq_ok.2 ⟨i, hi, rfl⟩⟩
  next hlimit =>
    have hlevels := hshape.leafLimit.trans (Nat.le_of_not_le hlimit)
    obtain ⟨r, hr⟩ := Branch.exists_collate (drawBack shape.levelsPerNode incoming).1 hshape hd
      (Branch.sound_started (fun _ : κ => []) hlevels).levels
    rw [← Branch.absorb_new hlevels] at hr
    exact ⟨_, bind_eq_ok.2 ⟨r, hr, rfl⟩⟩

end Node

end intake

/-! ### Sending points on -/

/-- Points that a node routes can be sent on, each list with the child that stands at its place. -/
theorem Node.jobs_eq {node : Node Held Subtree} {onward : Buckets}
    (h : ∀ x ∈ onward, ∀ p ∈ x.2, node.Routes shape d Held.value x.1 p.value)
    (hne : ∀ x ∈ onward, x.2 ≠ []) :
    node.jobs onward =
      .ok (onward.map fun x => (x.1, ⟨Keyed.get? x.1 node.children, x.2⟩)) := by
  induction onward with
  | nil => rfl
  | cons x rest ih =>
      have hrest := ih (fun y hy => h y (List.mem_cons_of_mem _ hy))
        fun y hy => hne y (List.mem_cons_of_mem _ hy)
      obtain ⟨p, hp⟩ := List.exists_mem_of_ne_nil _ (hne x List.mem_cons_self)
      have hroute := h x List.mem_cons_self p hp
      cases node with
      | leaf l => exact hroute.elim
      | branch b =>
          have hchild : (Node.branch b).child? x.1 = .ok (Keyed.get? x.1 b.children) :=
            if_pos hroute.1
          obtain ⟨index, points⟩ := x
          simp only [Node.jobs, hchild, hrest]
          rfl

end Vantage
