/-
**Serving a place in a store of nodes is serving it among values.**

Points wait for a place in the store as they wait for the place among values: the same points, for a
node that lies there as the node among values stands there. The node is saved, takes the points
where it lies, and may give way to a branch; or a new node is made. Either way the same comes of it
as among values: the node refuses with the same fault, or the node that stands there in the end is
the same, the same slots are taken, and the same are noted as given up.

Main definitions:

* `Work.Tracks` — the two placements agree on slots and points;
* `Work.Waits` — points wait for the same place in both;
* `Work.Stages`, `Work.Halts` — what has been made of one place in the store, or of none;
* `Placing.Follows` — both placements come to the same.

Main results:

* `Placing.absorbAt_eq`, `Placing.build_eq` — what a node in the store makes of points;
* `Placing.exists_new` — a new node in a place;
* `Placing.follows_serve` — **one place**.
-/

import Vantage.Proofs.LinkedNodes
import Vantage.Proofs.LivePoints

set_option relaxedAutoImplicit false
set_option autoImplicit false

namespace Vantage

variable {shape : Shape} {d : Metric} {points : Slots Point}

/-! ### Points that are live already -/

namespace Slots

/-- Putting back what a slot holds changes nothing. -/
theorem replace_self {α : Type} {s : Slots α} {slot : Nat} {a : α} (h : s.get? slot = some a) :
    (s.replace slot a).2 = s := by
  obtain ⟨hlt, hcell⟩ := Array.getElem?_eq_some_iff.1 (Option.join_eq_some_iff.1 h)
  have hsame : s.cells.setIfInBounds slot (some a) = s.cells := by
    rw [Array.setIfInBounds_def, dif_pos hlt, ← hcell, Array.set_getElem_self]
  rw [replace, h]
  dsimp only
  rw [hsame]

theorem get?_of_heldAt {h : Held} (hlook : points.heldAt h.slot = h) (hlive : h.live = true) :
    points.get? h.slot = some h.point := by
  cases hp : points.get? h.slot with
  | some p => rw [← hlook, heldAt_of_get? points hp]
  | none =>
      -- a free slot would be taken to hold a dead point
      rw [← hlook, heldAt, hp] at hlive
      cases hlive

/-- Marking live points as live changes nothing. -/
theorem reviveAll_eq {stored : List Held} (h : ∀ p ∈ stored, points.heldAt p.slot = p)
    (hlive : ∀ p ∈ stored, p.live = true) :
    points.reviveAll (stored.map Held.slot) = .ok points := by
  induction stored with
  | nil => rfl
  | cons p rest ih =>
      obtain ⟨hp, hrest⟩ := List.forall_mem_cons.1 h
      obtain ⟨hplive, hlive'⟩ := List.forall_mem_cons.1 hlive
      have hget := get?_of_heldAt hp hplive
      have hsame : { p.point with live := true } = p.point :=
        congrArg (fun live => { p.point with live }) (show true = p.point.live from hplive.symm)
      rw [List.map_cons, reviveAll, setLive_eq points hget, hsame, ok_bind, replace_self hget]
      exact ih hrest hlive'

end Slots

theorem Work.revive_eq {w : Work} {stored : List Held}
    (h : ∀ p ∈ stored, w.points.heldAt p.slot = p) (hlive : ∀ p ∈ stored, p.live = true) :
    w.revive stored = .ok w := by
  rw [revive, Slots.reviveAll_eq h hlive]
  rfl

/-! ### Two placements that agree -/

/-- A node with its points at hand, as it lies in a store. -/
def Node.toCell (node : Node Held Subtree) : Cell :=
  (node.mapPoints Held.slot).mapChildren Subtree.slot

namespace Stage

/-- The node as it lies in a store. -/
def cell (stage : Stage) : Cell := stage.node.mapChildren Subtree.slot

/-- The points that go on, on their way in a store. -/
def pending (stage : Stage) : List Pending :=
  stage.onward.map fun x => ⟨.child stage.slot x.1, x.2.points⟩

/-- What has been made of points, in its slot. -/
def ofIntake (slot : Nat) (i : Intake Subtree) : Stage :=
  ⟨slot, i.node.mapPoints Held.slot,
    i.onward.map fun x => (x.1, ⟨Keyed.get? x.1 i.node.children, x.2⟩)⟩

theorem pending_ofIntake (slot : Nat) (i : Intake Subtree) :
    (ofIntake slot i).pending = Placing.sent slot i.onward := by
  rw [pending, ofIntake, List.map_map]
  rfl

end Stage

namespace Job

/-- The slot of the node at a place. -/
def top (job : Job) : List Nat := (job.site.map Subtree.slot).toList

/-- The slots of the nodes at and below a place. -/
def slots (job : Job) : List Nat := job.contents fun t => [t.slot]

/-- The slots of the nodes below a place. -/
def below (job : Job) : List Nat := job.kids.flatMap fun x => x.2.slots

theorem slots_eq (job : Job) : job.slots = job.top ++ job.below := by
  rw [slots, contents_eq, top, below]
  cases job.site <;> rfl

theorem mem_slots_of_top {job : Job} {slot : Nat} (h : slot ∈ job.top) : slot ∈ job.slots := by
  rw [slots_eq]
  exact List.mem_append_left _ h

/-- Serving a place whose node takes the points. -/
theorem run_eq_ok {job : Job} {i : Intake Subtree} (h : job.Ready shape d points)
    (hshape : shape.Sound) (hi : job.attempt shape d points = .ok i) (p : Progress) :
    job.run shape d points p = .ok (.ofIntake (p.enter (job.site.map Subtree.slot) i).1 i,
      (p.enter (job.site.map Subtree.slot) i).2) := by
  have hsound := h.sound_attempt hshape hi
  rw [run_eq h.own_occupied, hi, mapError_ok, ok_bind,
    Node.jobs_eq hsound.routes hsound.nonempty]
  rfl

theorem run_eq_error {job : Job} {fault : Fault} (h : job.Ready shape d points)
    (hi : job.attempt shape d points = .error fault) (p : Progress) :
    job.run shape d points p = .error (.refused fault p.created) := by
  rw [run_eq h.own_occupied, hi]
  rfl

end Job

namespace Progress

/-- A node that stays keeps its slot. -/
theorem enter_of_stays (p : Progress) (slot : Nat) {i : Intake Subtree} (h : i.fresh = false) :
    p.enter (some slot) i = (slot, { p with dead := p.dead ++ i.dead.map Held.slot }) := by
  simp only [enter, h]

/-- A new node takes a slot. -/
theorem enter_of_fresh (p : Progress) (standing : Option Nat) {i : Intake Subtree}
    (h : i.fresh = true) : p.enter standing i = ((p.labels.alloc ()).1, { p with
      labels := (p.labels.alloc ()).2
      created := p.created + 1
      discarded := p.discarded ++ standing.toList
      dead := p.dead ++ i.dead.map Held.slot }) := by
  simp only [enter, h]

end Progress

namespace Work

/-- What a batch works on agrees with the progress of a placement among values. -/
structure Tracks (w : Work) (points : Slots Point) (p : Progress) : Prop where
  points : w.points = points
  labels : w.nodes.units = p.labels
  created : w.journal.created.length = p.created
  discarded : w.journal.discarded = p.discarded
  dead : w.journal.dead = p.dead

/-- A placement has stopped at a fault: the points are as they were, and so many nodes are new. -/
structure Halts (w : Work) (points : Slots Point) (created : Nat) : Prop where
  points : w.points = points
  created : w.journal.created.length = created

/-- Points wait for a place in the store as they do for a place among values. -/
structure Waits (w : Work) (pending : Pending) (job : Job) : Prop where
  points : pending.points = job.points
  opens : w.Opens pending.site (job.site.map Subtree.slot)
  shows : ∀ t ∈ job.site, w.nodes.Shows t

/-- What a placement in the store has made of one place. -/
structure Stages (w w' : Work) (points : Slots Point) (p' : Progress) (site : Site) (job : Job)
    (stage : Stage) : Prop where
  tracks : w'.Tracks points p'
  puts : w.Puts w' job.top [(site, stage.slot)]
  cell : w'.nodes.get? stage.slot = some stage.cell
  /-- The node keeps its slot, or takes a free one. -/
  slot : stage.slot ∈ job.top ∨ ¬ w.nodes.Occupied stage.slot

/-- Notes that the nodes of several slots have been replaced. -/
def discardAll (w : Work) (slots : List Nat) : Work :=
  { w with journal := { w.journal with discarded := w.journal.discarded ++ slots } }

theorem discardAll_nil (w : Work) : w.discardAll [] = w := by
  rw [discardAll, List.append_nil]

variable {w : Work} {site : Site} {slot : Nat}

theorem Opens.relink_eq (h : w.Opens site (some slot)) {other : Nat} {cell : Cell}
    (hcell : w.nodes.get? other = some cell) : cell.relink (site.links slot other) = cell := by
  generalize hstanding : some slot = standing at h
  cases h with
  | root => rfl
  | @child parent index above habove hindex hasc =>
      simp only [Site.links]
      split
      next heq =>
        subst heq
        obtain rfl := Option.some.inj (habove.symm.trans hcell)
        exact Node.relink_self hasc hstanding.symm
      next => rfl

theorem Opens.rootFor_eq (h : w.Opens site (some slot)) : site.rootFor slot w.root = w.root := by
  generalize hstanding : some slot = standing at h
  cases h with
  | root => exact hstanding
  | child => rfl

/-- A node that stays in its place is put there. -/
theorem Opens.puts_self (h : w.Opens site (some slot)) {w' : Work}
    (hnodes : ∀ other, other ≠ slot → w'.nodes.get? other = w.nodes.get? other)
    (hroot : w'.root = w.root) : w.Puts w' [slot] [(site, slot)] where
  nodes other cell hother hcell := by
    rw [hnodes other (by simpa using hother), hcell, linksAt, List.flatMap_singleton,
      h.relink_eq hcell]
  root := hroot.trans h.rootFor_eq.symm

/-- There is a node above a place, if it is not the root's. -/
theorem Opens.exists_above {standing : Option Nat} (h : w.Opens site standing) {parent : Nat}
    (hparent : parent ∈ site.parent?) : ∃ cell, w.nodes.get? parent = some cell := by
  cases h with
  | root => cases hparent
  | child hcell hindex hasc =>
      obtain rfl := Option.some.inj hparent
      exact ⟨_, hcell⟩

end Work

/-! ### One place -/

namespace Node

/-- The points that a new node stores are points that it was handed, and live. -/
theorem live_stored_build {κ : Type} {incoming : List Held} {a : Absorbed κ}
    (h : (build shape d incoming).outcome = .ok a) (hlive : ∀ p ∈ incoming, p.live = true)
    {p : Held} (hp : p ∈ a.stored) : p ∈ incoming ∧ p.live = true := by
  obtain ⟨hmem, hplive⟩ := live_stored h hlive hp
  refine ⟨?_, hplive⟩
  split at hmem <;> simpa [points, vantage, stored, Branch.new] using hmem

end Node

/-- A leaf that is built for points that fit into one is not given up at once. -/
theorem Node.replacement_build {κ : Type} {incoming : List Held} {a : Absorbed κ}
    (h : (build shape d incoming).outcome = .ok a) : a.replacement = none := by
  unfold build at h
  dsimp only at h
  split at h
  next hfit =>
    have hroom : ((Leaf.draw shape {} incoming).1.stored.length +
        (Leaf.draw shape {} incoming).2.length) ≤ shape.leafCap := by
      have hrest : (Leaf.draw shape {} incoming).2.length = incoming.length - shape.pathLength :=
        length_drawBack_fst _ _
      have hnone : (Leaf.draw shape {} incoming).1.stored = [] := rfl
      rw [hrest, hnone]
      rw [Shape.leafLimit] at hfit
      simp only [List.length_nil]
      omega
    rw [takeIn, Leaf.takeIn] at h
    dsimp only at h
    rw [if_pos hroom, Leaf.storeIn] at h
    split at h
    · obtain rfl := Except.ok.inj h
      rfl
    · cases h
  next =>
    obtain ⟨onward, -, rfl⟩ := map_eq_ok.1 h
    rfl

namespace Placing

variable {w : Work} {site : Site} {standing : Option Nat} {incoming : List Held}

/-- What the node in a slot makes of points. -/
theorem absorbAt_eq {t : Subtree} (hcell : w.nodes.get? t.slot = some t.cell)
    (hocc : ∀ slot ∈ t.node.points, w.points.Occupied slot)
    (hlook : ∀ h ∈ incoming, w.points.heldAt h.slot = h) (hlive : ∀ p ∈ incoming, p.live = true) :
    absorbAt shape d t.slot incoming w =
      .ok (((t.looked w.points).takeIn shape d incoming).outcome.map
          (Absorbed.mapChildren Subtree.slot),
        w.write t.slot ((t.looked w.points).takeIn shape d incoming).left.toCell) := by
  have hlookUp : t.cell.lookUp w.points =
      .ok ((t.looked w.points).mapChildren Subtree.slot) := by
    rw [Node.lookUp_eq (by rwa [Subtree.cell, Node.points_mapChildren]), Subtree.cell,
      Node.mapPoints_mapChildren, Subtree.looked]
  rw [absorbAt_apply, Slots.cell_eq_ok_iff.2 hcell, ok_bind, hlookUp, ok_bind,
    Node.takeIn_mapChildren]
  dsimp only
  rw [Node.mapPoints_mapChildren]
  cases hout : ((t.looked w.points).takeIn shape d incoming).outcome with
  | error fault => rfl
  | ok a =>
      -- the points that a leaf stores are live already
      have hstored : ∀ p ∈ a.stored, w.points.heldAt p.slot = p ∧ p.live = true := by
        intro p hp
        obtain ⟨hmem, hplive⟩ := Node.live_stored hout hlive hp
        refine ⟨?_, hplive⟩
        rw [Subtree.looked, Node.points_mapPoints] at hmem
        rcases List.mem_append.1 hmem with hmem | hmem
        · obtain ⟨slot, -, rfl⟩ := List.mem_map.1 hmem
          rfl
        · exact hlook p hmem
      have hrevive := Work.revive_eq
        (w := w.write t.slot ((t.looked w.points).takeIn shape d incoming).left.toCell)
        (fun p hp => (hstored p hp).1) fun p hp => (hstored p hp).2
      exact congrArg
        (· >>= fun w₂ => Except.ok (Except.ok (a.mapChildren Subtree.slot), w₂)) hrevive

/-- What a new node makes of points. -/
theorem build_eq (hlook : ∀ h ∈ incoming, w.points.heldAt h.slot = h)
    (hlive : ∀ p ∈ incoming, p.live = true) :
    build shape d incoming w =
      .ok ((Node.build shape d incoming : Attempt (Node Held Subtree) _).outcome.map fun a =>
        ((Node.build shape d incoming : Attempt (Node Held Subtree) _).left.toCell,
          a.mapChildren Subtree.slot), w) := by
  rw [build_apply, Node.build_mapChildren Subtree.slot]
  dsimp only
  rw [Node.mapPoints_mapChildren]
  cases hout : (Node.build shape d incoming : Attempt (Node Held Subtree) _).outcome with
  | error fault => rfl
  | ok a =>
      have hrevive : w.revive a.stored = .ok w := Work.revive_eq
        (fun p hp => hlook p (Node.live_stored_build hout hlive hp).1)
        fun p hp => (Node.live_stored_build hout hlive hp).2
      exact congrArg (· >>= fun w₁ => Except.ok (Except.ok (_, a.mapChildren Subtree.slot), w₁))
        hrevive

/-- A new node takes the slot that a new label takes, and leaves the others alone. -/
theorem mint_spec {p : Progress} {l : List Nat} (hl : w.nodes.Holds l)
    (hlabels : w.nodes.units = p.labels) (cell : Cell) :
    (w.mint cell).1 = (p.labels.alloc ()).1 ∧ (w.mint cell).2.nodes.units = (p.labels.alloc ()).2 ∧
      (w.mint cell).1 ∉ l ∧ (w.mint cell).2.nodes.get? (w.mint cell).1 = some cell ∧
      w.Puts (w.mint cell).2 [] [] := by
  have hunits := Slots.units_alloc w.nodes cell
  rw [hlabels] at hunits
  refine ⟨by rw [hunits]; rfl, by rw [hunits]; rfl, hl.alloc_not_mem cell, hl.get?_alloc cell,
    fun other c _ hc => ?_, rfl⟩
  have hne : other ≠ (w.nodes.alloc cell).1 := by
    rintro rfl
    exact hl.alloc_not_mem cell (hl.mem_of_get? hc)
  exact (Slots.get?_alloc_of_ne _ _ hne).trans hc

/-- A new node is put in its place, and dead points are noted. -/
theorem exists_put (h : w.Opens site standing) {slot : Nat} {cell : Cell}
    (hcell : w.nodes.get? slot = some cell) (hsite : site.parent? ≠ some slot) (dead : List Held)
    (next : List Pending) :
    ∃ w', (link site slot >>= fun _ => modify (·.bury dead) >>= fun _ => pure next : Placing _) w =
        .ok (.ok next, w') ∧
      w.Puts w' [] [(site, slot)] ∧ w'.nodes.get? slot = some cell ∧
      w'.points = w.points ∧ w'.nodes.units = w.nodes.units ∧
      w'.journal.created = w.journal.created ∧ w'.journal.discarded = w.journal.discarded ∧
      w'.journal.dead = w.journal.dead ++ dead.map Held.slot := by
  obtain ⟨nodes, root, touched, saved, hlink, hunits, hnodes, hroot⟩ := exists_link h slot
  refine ⟨Work.bury { w.noting touched saved with nodes, root } dead, ?_,
    ⟨fun other c _ hc => ?_, hroot⟩, ?_, rfl, hunits, rfl, rfl, rfl⟩
  · rw [bind_of_ok hlink]
    rfl
  · change nodes.get? other = _
    rw [hnodes, hc, linksAt, List.flatMap_singleton]
    rfl
  · change nodes.get? slot = _
    rw [hnodes, hcell, Site.links_of_ne hsite]
    rfl

/-- **A new node in a place.**  It takes a slot, the node that stood there is noted as replaced, and
the node above is linked to the new one. -/
theorem exists_new {u v : Work} (job : Job) {p : Progress} (i : Intake Subtree) {l : List Nat}
    (hfresh : i.fresh = true) (hl : w.nodes.Holds l) (hlv : v.nodes.Holds l)
    (htracks : v.Tracks points p) (hw : w.Puts v job.top [])
    (hu : u = (v.mint i.node.toCell).2.discardAll job.top)
    (hopens : w.Opens site (job.site.map Subtree.slot))
    (habove : ∀ parent, site.parent? = some parent → parent ∉ job.top) :
    ∃ w', (link site (v.mint i.node.toCell).1 >>= fun _ => modify (·.bury i.dead) >>= fun _ =>
          pure (sent (v.mint i.node.toCell).1 i.onward) : Placing _) u =
        .ok (.ok (Stage.ofIntake (p.enter (job.site.map Subtree.slot) i).1 i).pending, w') ∧
      w.Stages w' points (p.enter (job.site.map Subtree.slot) i).2 site job
        (.ofIntake (p.enter (job.site.map Subtree.slot) i).1 i) := by
  obtain ⟨hpoints, hlabels, hcreated, hdiscarded, hdead⟩ := htracks
  obtain ⟨hslot, hunits, hfree, hminted, hmint⟩ := mint_spec hlv hlabels i.node.toCell
  rw [p.enter_of_fresh _ hfresh, ← hslot, ← hunits, Stage.pending_ofIntake]
  have hsite : site.parent? ≠ some (v.mint i.node.toCell).1 := by
    intro hparent
    obtain ⟨cell, hcell⟩ := hopens.exists_above hparent
    exact hfree (hl.mem_of_get? hcell)
  subst hu
  have hbefore : w.Puts ((v.mint i.node.toCell).2.discardAll job.top) job.top [] := by
    have hboth := hw.trans hmint
    rw [List.append_nil] at hboth
    exact ⟨hboth.nodes, hboth.root⟩
  obtain ⟨w', hlink, hputs, hcell, hpoints', hunits', hcreated', hdiscarded', hdead'⟩ :=
    exists_put (hbefore.opens hopens habove List.not_mem_nil) hminted hsite i.dead
      (sent (v.mint i.node.toCell).1 i.onward)
  refine ⟨w', hlink, ⟨hpoints'.trans hpoints, hunits', ?_, ?_, ?_⟩, ?_, hcell, .inr fun hocc => ?_⟩
  · rw [hcreated', ← hcreated]
    exact List.length_append
  · rw [hdiscarded', ← hdiscarded]
    rfl
  · rw [hdead', ← hdead]
    rfl
  · have hall := hbefore.trans hputs
    rwa [List.append_nil] at hall
  · exact hfree ((hl.occupied _).1 hocc)

/-- A node that has been saved is changed where it lies, and the others stay as they are. -/
theorem write_spec {touched : Std.TreeSet Nat} {saved : List (Nat × Cell)} {slot : Nat}
    {cell : Cell} {p : Progress} {l : List Nat} (hcell : w.nodes.get? slot = some cell)
    (hl : w.nodes.Holds l) (htracks : w.Tracks points p) (cell' : Cell) :
    ∃ v, (w.noting touched saved).write slot cell' = v ∧ v.Tracks points p ∧ v.nodes.Holds l ∧
      v.nodes.get? slot = some cell' ∧ w.Puts v [slot] [] ∧
      ∀ {site : Site}, w.Opens site (some slot) → w.Puts v [slot] [(site, slot)] := by
  have hnodes : ∀ other, other ≠ slot →
      (w.nodes.replace slot cell').2.get? other = w.nodes.get? other :=
    fun other hne => Slots.get?_replace_of_ne _ _ hne
  refine ⟨_, rfl, ⟨htracks.points, ?_, htracks.created, htracks.discarded, htracks.dead⟩,
    hl.replace _ _, Slots.get?_replace_self _ hcell, ⟨fun other c hother hc => ?_, rfl⟩,
    fun hopens => hopens.puts_self hnodes rfl⟩
  · exact (Slots.units_replace _ _ _).trans htracks.labels
  · exact (hnodes other (by simpa using hother)).trans hc

/-- A step for which both placements come to the same: a node refuses in both with the same fault,
or both have made the same of the place. -/
def Follows (shape : Shape) (d : Metric) (points : Slots Point) (p : Progress) (job : Job)
    (site : Site) (step : Placing (List Pending)) (w : Work) : Prop :=
  (∃ fault w', job.run shape d points p = .error (.refused fault p.created) ∧
    step w = .ok (.error fault, w') ∧ w'.Halts points p.created) ∨
  ∃ stage p' w', job.run shape d points p = .ok (stage, p') ∧
    step w = .ok (.ok stage.pending, w') ∧ w.Stages w' points p' site job stage

/-- A place where a node stands. -/
theorem follows_extend (hshape : shape.Sound) {t : Subtree} {p : Progress} {l : List Nat}
    (hjob : Job.Ready shape d points ⟨some t, incoming⟩) (hlive : ∀ x ∈ incoming, x.live = true)
    (hl : w.nodes.Holds l) (htracks : w.Tracks points p) (hopens : w.Opens site (some t.slot))
    (hcell : w.nodes.get? t.slot = some t.cell)
    (habove : ∀ parent, site.parent? = some parent → parent ∉ [t.slot]) :
    Follows shape d points p ⟨some t, incoming⟩ site (extend shape d site t.slot incoming) w := by
  obtain ⟨touched, saved, hsave⟩ := exists_save hcell
  obtain rfl := htracks.points
  -- the saved node takes the points
  have habsorb : absorbAt shape d t.slot incoming (w.noting touched saved) = _ :=
    absorbAt_eq hcell (fun slot hslot => hjob.own_occupied slot hslot) hjob.looked hlive
  generalize htaken : (t.looked (w.noting touched saved).points).takeIn shape d incoming = taken
    at habsorb
  have hattempt : Job.attempt shape d w.points ⟨some t, incoming⟩ = taken.intake := by
    rw [← htaken]
    exact Node.absorb_eq_takeIn _ _
  obtain ⟨left, outcome⟩ := taken
  obtain ⟨v, hv, htracks, hlv, hself, hputs, hstays⟩ := write_spec hcell hl htracks left.toCell
  rw [hv] at habsorb
  cases outcome with
  | error fault =>
      refine .inl ⟨fault, v, Job.run_eq_error hjob hattempt p, ?_,
        htracks.points, htracks.created⟩
      rw [extend, save_bind, hsave, ok_bind, bind_apply, habsorb]
      rfl
  | ok a =>
      right
      obtain ⟨replacement, onward, dead, stored⟩ := a
      cases replacement with
      | none =>
          -- the node stays in its slot
          have hrun := Job.run_eq_ok (i := ⟨left, false, onward, dead⟩) hjob hshape hattempt p
          rw [Option.map_some, p.enter_of_stays _ rfl] at hrun
          refine ⟨_, _, v.bury dead, hrun, ?_, ⟨htracks.points, htracks.labels, htracks.created,
            htracks.discarded, ?_⟩, ⟨(hstays hopens).nodes, (hstays hopens).root⟩, hself,
            .inl (List.mem_singleton_self _)⟩
          · rw [extend, save_bind, hsave, ok_bind, bind_apply, habsorb, Stage.pending_ofIntake]
            rfl
          · exact congrArg (· ++ dead.map Held.slot) htracks.dead
      | some branch =>
          -- a branch takes a slot of its own, and the place
          have hrun := Job.run_eq_ok (i := ⟨.branch branch, true, onward, dead⟩) hjob hshape
            hattempt p
          obtain ⟨w', hlink, hstages⟩ := exists_new ⟨some t, incoming⟩
            ⟨.branch branch, true, onward, dead⟩ rfl hl hlv htracks hputs rfl hopens habove
          refine ⟨_, _, w', hrun, ?_, hstages⟩
          rw [extend, save_bind, hsave, ok_bind, bind_apply, habsorb]
          exact hlink

/-- A place where none stands. -/
theorem follows_plant (hshape : shape.Sound) {p : Progress} {l : List Nat}
    (hjob : Job.Ready shape d points ⟨none, incoming⟩) (hlive : ∀ x ∈ incoming, x.live = true)
    (hl : w.nodes.Holds l) (htracks : w.Tracks points p) (hopens : w.Opens site none) :
    Follows shape d points p ⟨none, incoming⟩ site (plant shape d site incoming) w := by
  obtain rfl := htracks.points
  have hbuild : build shape d incoming w = _ := build_eq hjob.looked hlive
  have hattempt : Job.attempt shape d w.points ⟨none, incoming⟩ = _ :=
    Node.create_eq_build incoming
  have hreplacement : ∀ a : Absorbed Subtree,
      (Node.build shape d incoming).outcome = .ok a → a.replacement = none :=
    fun _ => Node.replacement_build
  generalize Node.build shape d incoming = built at hbuild hattempt hreplacement
  obtain ⟨left, outcome⟩ := built
  cases outcome with
  | error fault =>
      refine .inl ⟨fault, w, Job.run_eq_error hjob hattempt p, ?_,
        htracks.points, htracks.created⟩
      rw [plant, bind_apply, hbuild]
      rfl
  | ok a =>
      right
      have hnone : a.replacement = none := hreplacement a rfl
      obtain ⟨replacement, onward, dead, stored⟩ := a
      obtain rfl := hnone
      have hrun := Job.run_eq_ok (i := ⟨left, true, onward, dead⟩) hjob hshape hattempt p
      obtain ⟨w', hlink, hstages⟩ := exists_new (v := w) ⟨none, incoming⟩
        ⟨left, true, onward, dead⟩ rfl hl hl htracks (.refl w) (Work.discardAll_nil _).symm hopens
        fun _ _ => List.not_mem_nil
      refine ⟨_, _, w', hrun, ?_, hstages⟩
      rw [plant, bind_apply, hbuild]
      exact hlink

/-- **One place**: both placements come to the same. -/
theorem follows_serve (hshape : shape.Sound) {pending : Pending} {job : Job} {p : Progress}
    {l : List Nat} (hjob : job.Ready shape d points) (hlive : ∀ x ∈ job.points, x.live = true)
    (hl : w.nodes.Holds l) (htracks : w.Tracks points p) (hw : w.Waits pending job)
    (habove : ∀ parent, pending.site.parent? = some parent → parent ∉ job.top) :
    Follows shape d points p job pending.site (serve shape d pending) w := by
  obtain ⟨standing, incoming⟩ := job
  obtain ⟨site, incoming'⟩ := pending
  obtain ⟨rfl, hopens, hshows⟩ := hw
  have hstanding := standing_eq hopens
  cases standing with
  | none =>
      have hserve : serve shape d ⟨site, incoming'⟩ w = plant shape d site incoming' w :=
        bind_of_ok hstanding _
      have h := follows_plant hshape hjob hlive hl htracks hopens
      unfold Follows at h ⊢
      rwa [hserve]
  | some t =>
      have hserve : serve shape d ⟨site, incoming'⟩ w =
          extend shape d site t.slot incoming' w :=
        bind_of_ok hstanding _
      have h := follows_extend hshape hjob hlive hl htracks hopens (hshows t rfl).root habove
      unfold Follows at h ⊢
      rwa [hserve]

end Placing

end Vantage
