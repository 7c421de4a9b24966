/-
**A flush takes all waiting points or none.**

Waiting points that are dead are freed first; the live ones are the batch. If the batch settles, the
nodes hold it and nothing waits. If a node refuses, the points of the batch are freed, their ids
lose them, and each id gets back the point that it had at the last flush. Either way the tree is
sound again, and what it remembered for its ids is forgotten.

Main definitions:

* `Tree.batch`, `Tree.lost` — the waiting points that are live, and those that are not;
* `Registry.Reinstates` — what giving ids their former points back does;
* `Tree.Commits`, `Tree.RollsBack` — the two ways in which a flush ends;
* `Tree.Flushes` — the outcome of a flush, and the tree that it leaves.

Main results:

* `Tree.flush_cases` — **a flush ends in one of the two ways, and leaves a sound tree**;
* `Tree.Flushes.eq_ok_of_sortable` — with a sortable metric it ends in the first.
-/

import Vantage.Proofs.TreeInvariant

set_option relaxedAutoImplicit false
set_option autoImplicit false

namespace Vantage

namespace Tree

variable {t t' : Tree}

/-! ### The batch -/

/-- The waiting points that are live, in order of registration. -/
def batch (t : Tree) : List Held := (t.arrivals.map t.points.heldAt).filter Held.live

/-- The waiting points that died while they waited. -/
def lost (t : Tree) : List Held := (t.arrivals.map t.points.heldAt).filter (not ∘ Held.live)

/-- The tree once the waiting points have been taken from it and the dead ones freed. -/
def swept (t : Tree) : Tree :=
  { t with
    prior := ∅
    arrivals := []
    points := t.points.freeAll (t.lost.map Held.slot) }

theorem perm_batch (t : Tree) :
    (t.lost.map Held.slot ++ t.batch.map Held.slot).Perm t.arrivals := by
  rw [← List.map_append]
  refine ((List.perm_append_comm.trans (List.filter_append_perm _ _)).map Held.slot).trans ?_
  rw [List.map_map, show Held.slot ∘ t.points.heldAt = id from rfl, List.map_id]

/-- A point of the batch waits, is what its slot holds, and is live. -/
theorem mem_batch {h : Held} (hh : h ∈ t.batch) :
    h.slot ∈ t.arrivals ∧ t.points.heldAt h.slot = h ∧ h.live = true := by
  obtain ⟨hmem, hlive⟩ := List.mem_filter.1 hh
  obtain ⟨slot, hslot, rfl⟩ := List.mem_map.1 hmem
  exact ⟨hslot, rfl, hlive⟩

theorem mem_lost {slot : Nat} (hslot : slot ∈ t.lost.map Held.slot) :
    slot ∈ t.arrivals ∧ (t.points.heldAt slot).live = false := by
  obtain ⟨h, hh, rfl⟩ := List.mem_map.1 hslot
  obtain ⟨hmem, hdead⟩ := List.mem_filter.1 hh
  obtain ⟨slot, harrived, rfl⟩ := List.mem_map.1 hmem
  exact ⟨harrived, by simpa using hdead⟩

/-- A live point that waits is in the batch. -/
theorem mem_batch_of_live {slot : Nat} {p : Point} (hslot : slot ∈ t.arrivals)
    (hp : t.points.get? slot = some p) (hlive : p.live = true) : ⟨slot, p⟩ ∈ t.batch := by
  refine List.mem_filter.2 ⟨List.mem_map.2 ⟨slot, hslot, ?_⟩, hlive⟩
  exact t.points.heldAt_of_get? hp

/-- A point of the batch is in its slot. -/
theorem get?_of_mem_batch (h : t.Sound) {x : Held} (hx : x ∈ t.batch) :
    t.points.get? x.slot = some x.point := by
  obtain ⟨harrived, hlook, -⟩ := mem_batch hx
  obtain ⟨p, hp⟩ := h.points.exists_get? (List.mem_append_right _ harrived)
  rw [t.points.heldAt_of_get? hp] at hlook
  rw [hp, show p = x.point from congrArg Held.point hlook]

/-- What a flush takes out of a tree, and the registry without it. -/
def taken (t : Tree) : Batch × Registry :=
  (⟨t.batch, t.prior.toList⟩, t.swept.toRegistry)

/-- The waiting points can be taken out. -/
theorem take_eq (h : t.Sound) : t.toRegistry.take = .ok t.taken := by
  have hlook : t.points.holdAll t.arrivals = .ok (t.arrivals.map t.points.heldAt) :=
    t.points.holdAll_eq fun slot hslot =>
      (h.points.occupied slot).2 (List.mem_append_right _ hslot)
  unfold Registry.take
  simp only [hlook, ok_bind, List.partition_eq_filter_filter]
  rfl

/-- The flush of a tree whose waiting points can be looked up. -/
theorem flush_eq (h : t.Sound) :
    t.flush =
      if t.batch.isEmpty then .ok (t.swept, .ok ())
      else
        match place t.shape t.metric t.swept.points t.labels t.root t.batch with
        | .ok (root, p) => .ok (t.swept.commit root p, .ok ())
        | .error (.refused fault created) => do
          let t' ← t.swept.rollback t.taken.1 created
          return (t', .error (.batchRolledBack fault (t.batch.map Held.entry)))
        | .error (.breach breach) => .error breach := by
  unfold flush
  simp only [take_eq h, ok_bind]
  rfl

/-! ### Freeing dead points -/

/-- Freeing dead points leaves the live ones. -/
theorem live_freeAll {points : Slots Point} {dead l : List Nat} (hpoints : points.Holds (dead ++ l))
    (hdead : ∀ slot ∈ dead, (points.heldAt slot).live = false) {slot : Nat} {p : Point}
    (hlive : p.live = true) :
    (points.freeAll dead).get? slot = some p ↔ points.get? slot = some p := by
  by_cases hslot : slot ∈ dead
  · -- the slot held a dead point, and holds none now
    have hnone : (points.freeAll dead).get? slot = none :=
      hpoints.freeAll.get?_of_not_mem fun hl =>
        List.disjoint_of_nodup_append hpoints.nodup hslot hl
    rw [hnone]
    refine ⟨fun h => absurd h (by simp), fun h => ?_⟩
    have := hdead slot hslot
    rw [points.heldAt_of_get? h] at this
    exact absurd (hlive.symm.trans this) (by simp)
  · rw [Slots.get?_freeAll_of_not_mem _ hslot]

theorem valueAt_congr {points points' : Slots Point} {slot : Nat}
    (h : points'.get? slot = points.get? slot) : points'.valueAt slot = points.valueAt slot := by
  rw [Slots.valueAt, Slots.heldAt, h]
  rfl

section swept

variable (h : t.Sound)
include h

/-- The points of the tree, with the dead ones among those that wait in front. -/
theorem holds_lost :
    t.points.Holds (t.lost.map Held.slot ++ (t.held ++ t.batch.map Held.slot)) := by
  refine h.points.perm ?_
  have hperm := t.perm_batch
  -- counting occurrences turns the permutations into equations
  rw [List.perm_iff_count] at hperm ⊢
  intro slot
  have := hperm slot
  simp only [List.count_append] at this ⊢
  omega

theorem holds_swept : t.swept.points.Holds (t.held ++ t.batch.map Held.slot) :=
  (holds_lost h).freeAll

theorem get?_swept_of_held {slot : Nat} (hslot : slot ∈ t.held) :
    t.swept.points.get? slot = t.points.get? slot :=
  Slots.get?_freeAll_of_not_mem _ fun hmem => h.not_mem_arrivals hslot (mem_lost hmem).1

theorem live_swept {slot : Nat} {p : Point} (hlive : p.live = true) :
    t.swept.points.get? slot = some p ↔ t.points.get? slot = some p :=
  live_freeAll (holds_lost h) (fun _ hslot => (mem_lost hslot).2) hlive

/-- A point of the batch is what its slot holds after the sweep. -/
theorem heldAt_swept {x : Held} (hx : x ∈ t.batch) : t.swept.points.heldAt x.slot = x := by
  have hlive : x.point.live = true := (mem_batch hx).2.2
  exact t.swept.points.heldAt_of_get? ((live_swept h hlive).2 (get?_of_mem_batch h hx))

/-- The nodes are sound after the sweep. -/
theorem sound_root_swept : ∀ root ∈ t.root, root.Sound t.shape t.metric t.swept.points := by
  intro root hroot
  refine (h.root root hroot).congr fun slot hslot => valueAt_congr (get?_swept_of_held h ?_)
  rw [held, show t.root = some root from hroot]
  exact hslot

end swept

/-! ### The batch settles -/

/-- How a flush ends when the batch settles: the entries are the same, nothing waits, and points
have been given up but not changed. -/
structure Commits (t t' : Tree) : Prop where
  shape : t'.shape = t.shape
  metric : t'.metric = t.metric
  arrivals : t'.arrivals = []
  prior : t'.prior = ∅
  ids : t'.ids = t.ids
  live : ∀ slot p, p.live = true →
    (t'.points.get? slot = some p ↔ t.points.get? slot = some p)
  points : ∀ slot p, t'.points.get? slot = some p → t.points.get? slot = some p

/-- A flush without live points frees the dead ones. -/
theorem commits_swept (h : t.Sound) : t.Commits t.swept where
  shape := rfl
  metric := rfl
  arrivals := rfl
  prior := rfl
  ids := rfl
  live _ _ hlive := live_swept h hlive
  points _ _ := t.points.get?_of_freeAll

/-- What stays of the invariant when the entries are the same and nothing waits. -/
theorem Commits.sound (hc : t.Commits t') (h : t.Sound) (hpoints : t'.points.Holds t'.held)
    (hlabels : t'.labels.Holds t'.slots)
    (hroot : ∀ root ∈ t'.root, root.Sound t.shape t.metric t'.points) : t'.Sound where
  shape := hc.shape ▸ h.shape
  points := by
    rw [hc.arrivals, List.append_nil]
    exact hpoints
  labels := hlabels
  root root hr := by
    rw [hc.shape, hc.metric]
    exact hroot root hr
  ids id slot := by
    rw [hc.ids, h.ids]
    constructor
    · rintro ⟨p, hp, hid, hlive⟩
      exact ⟨p, (hc.live slot p hlive).2 hp, hid, hlive⟩
    · rintro ⟨p, hp, hid, hlive⟩
      exact ⟨p, (hc.live slot p hlive).1 hp, hid, hlive⟩
  registered slot hslot := by
    rw [hc.arrivals] at hslot
    exact absurd hslot (by simp)
  waiting id slot hid := by
    rw [hc.prior] at hid
    exact absurd hid (by simp)
  former id slot hid := by
    rw [hc.prior] at hid
    exact absurd hid (by simp)

theorem sound_swept (h : t.Sound) (hempty : t.batch = []) : t.swept.Sound := by
  refine (commits_swept h).sound h ?_ h.labels (sound_root_swept (t := t) h)
  have hpoints := holds_swept h
  rwa [hempty, List.map_nil, List.append_nil] at hpoints

section commit

variable {root : Subtree} {p : Progress} {minted gone dead : List Nat}

/-- What the nodes hold once the batch has settled, and what is given up. -/
theorem holds_placed (h : t.Sound)
    (hs : Settlement t.shape t.metric t.swept.points [⟨t.root, t.batch⟩] [root] minted gone dead) :
    t.swept.points.Holds (dead ++ root.held) := by
  refine (holds_swept h).perm ?_
  have hperm := hs.held
  simp only [List.flatMap_cons, List.flatMap_nil, List.append_nil] at hperm
  exact hperm.symm.trans List.perm_append_comm

theorem commits_commit (h : t.Sound)
    (hadv : Progress.Advances { labels := t.labels } p minted gone dead)
    (hs : Settlement t.shape t.metric t.swept.points [⟨t.root, t.batch⟩] [root] minted gone dead) :
    t.Commits (t.swept.commit (some root) p) where
  shape := rfl
  metric := rfl
  arrivals := rfl
  prior := rfl
  ids := rfl
  live slot q hlive := by
    have hdead : p.dead = dead := by simpa using hadv.dead
    change (t.swept.points.freeAll p.dead).get? slot = some q ↔ _
    rw [hdead, live_freeAll (holds_placed h hs) hs.dead hlive]
    exact live_swept h hlive
  points slot q hq := t.points.get?_of_freeAll (t.swept.points.get?_of_freeAll hq)

/-- **A batch that settles leaves a sound tree.** -/
theorem sound_commit (h : t.Sound)
    (hadv : Progress.Advances { labels := t.labels } p minted gone dead)
    (hs : Settlement t.shape t.metric t.swept.points [⟨t.root, t.batch⟩] [root] minted gone dead) :
    (t.swept.commit (some root) p).Sound := by
  have hdead : p.dead = dead := by simpa using hadv.dead
  have hgone : p.discarded = gone := by simpa using hadv.discarded
  have hholds := holds_placed h hs
  refine (commits_commit h hadv hs).sound h ?_ ?_ ?_
  · change (t.swept.points.freeAll p.dead).Holds root.held
    rw [hdead]
    exact hholds.freeAll
  · change (p.labels.freeAll p.discarded).Holds root.slots
    rw [hgone]
    refine ((hadv.labels _ h.labels).perm ?_).freeAll
    have hperm := hs.slots
    simp only [List.flatMap_cons, List.flatMap_nil, List.append_nil] at hperm
    exact List.perm_append_comm.trans (hperm.symm.trans List.perm_append_comm)
  · intro r hr
    obtain rfl := Option.some.inj hr
    change root.Sound t.shape t.metric (t.swept.points.freeAll p.dead)
    rw [hdead]
    obtain ⟨hsettles, -⟩ := List.forall₂_cons.1 hs.each
    refine hsettles.sound.congr fun slot hslot => valueAt_congr ?_
    exact Slots.get?_freeAll_of_not_mem _ fun hmem =>
      List.disjoint_of_nodup_append hholds.nodup hmem hslot

end commit

end Tree

/-! ### A node refuses -/

namespace Registry

variable {r r' : Registry}

/-- Freeing a dropped batch takes their ids from its points. -/
theorem foldl_unregister (bs : List Held) (r : Registry) :
    ∃ ids, bs.foldl unregister r =
        { r with points := r.points.freeAll (bs.map Held.slot), ids := ids } ∧
      ∀ id, ids[id]? =
        if ∃ h ∈ bs, h.point.id = id ∧ r.ids[id]? = some h.slot then none else r.ids[id]? := by
  induction bs generalizing r with
  | nil => exact ⟨r.ids, rfl, fun id => by simp⟩
  | cons h bs ih =>
      obtain ⟨ids, hfold, hids⟩ := ih (r.unregister h)
      refine ⟨ids, hfold, fun id => (hids id).trans ?_⟩
      have hfirst : (r.unregister h).ids[id]? =
          if h.point.id = id ∧ r.ids[id]? = some h.slot then none else r.ids[id]? := by
        unfold unregister
        dsimp only
        split
        next hown =>
          rw [getElem?_erase_id]
          by_cases hid : h.point.id = id
          · rw [if_pos hid, if_pos ⟨hid, hid ▸ hown⟩]
          · rw [if_neg hid, if_neg fun hc => hid hc.1]
        next hown =>
          rw [if_neg]
          rintro ⟨rfl, hc⟩
          exact hown hc
      rw [hfirst]
      by_cases hown : h.point.id = id ∧ r.ids[id]? = some h.slot
      · rw [if_pos hown]
        simp [hown]
      · rw [if_neg hown]
        simp only [List.exists_mem_cons_iff, hown, false_or]

/-- What giving ids their former points back does. -/
structure Reinstates (r : Registry) (former : List (Int64 × Option Nat)) (l : List Nat)
    (r' : Registry) : Prop where
  arrivals : r'.arrivals = r.arrivals
  prior : r'.prior = r.prior
  points : r'.points.Holds l
  given : ∀ id slot, (id, some slot) ∈ former → r'.ids[id]? = some slot
  kept : ∀ id, (∀ slot, (id, some slot) ∉ former) → r'.ids[id]? = r.ids[id]?
  revived : ∀ id slot, (id, some slot) ∈ former →
    ∃ p, r.points.get? slot = some p ∧ r'.points.get? slot = some { p with live := true }
  untouched : ∀ slot, (∀ id, (id, some slot) ∉ former) →
    r'.points.get? slot = r.points.get? slot

namespace Reinstates

variable {id : Int64} {rest : List (Int64 × Option Nat)} {l : List Nat}

/-- An id that had no point at the last flush gets none. -/
theorem skip (hr : r.Reinstates rest l r') : r.Reinstates ((id, none) :: rest) l r' where
  arrivals := hr.arrivals
  prior := hr.prior
  points := hr.points
  given i slot hmem := hr.given i slot (by simpa using hmem)
  kept i hmem := hr.kept i fun slot => by simpa using hmem slot
  revived i slot hmem := hr.revived i slot (by simpa using hmem)
  untouched slot hmem := hr.untouched slot fun i => by simpa using hmem i

/-- An id gets its point back before other ids get theirs. -/
theorem give {slot : Nat} {p : Point} (hp : r.points.get? slot = some p)
    (hother : ∀ i s, (i, some s) ∈ rest → i ≠ id ∧ s ≠ slot)
    (hr : Reinstates { r with
      points := (r.points.replace slot { p with live := true }).2
      ids := r.ids.insert id slot } rest l r') :
    r.Reinstates ((id, some slot) :: rest) l r' where
  arrivals := hr.arrivals
  prior := hr.prior
  points := hr.points
  given i s hmem := by
    rcases List.mem_cons.1 hmem with heq | hmem
    · obtain ⟨rfl, hs⟩ := Prod.mk.inj heq
      obtain rfl := Option.some.inj hs
      -- none of the later ids is this one, so it keeps what it was given
      rw [hr.kept i fun s' hs' => (hother i s' hs').1 rfl, getElem?_insert_id, if_pos rfl]
    · exact hr.given i s hmem
  kept i hmem := by
    have hne : id ≠ i := fun heq => hmem slot (heq ▸ List.mem_cons_self)
    rw [hr.kept i fun s hs => hmem s (List.mem_cons_of_mem _ hs), getElem?_insert_id, if_neg hne]
  revived i s hmem := by
    rcases List.mem_cons.1 hmem with heq | hmem
    · obtain ⟨-, hs⟩ := Prod.mk.inj heq
      obtain rfl := Option.some.inj hs
      refine ⟨p, hp, ?_⟩
      -- none of the later points is this one, so it stays alive
      rw [hr.untouched s fun i hmem => (hother i s hmem).2 rfl]
      exact Slots.get?_replace_self _ hp
    · obtain ⟨q, hq, hlive⟩ := hr.revived i s hmem
      rw [Slots.get?_replace_of_ne _ _ (hother i s hmem).2] at hq
      exact ⟨q, hq, hlive⟩
  untouched s hmem := by
    have hne : s ≠ slot := fun heq => hmem id (heq ▸ List.mem_cons_self)
    rw [hr.untouched s fun i hi => hmem i (List.mem_cons_of_mem _ hi)]
    exact Slots.get?_replace_of_ne _ _ hne

end Reinstates

/-- Ids without a point get their former points back. -/
theorem exists_reinstate {former : List (Int64 × Option Nat)} {l : List Nat} {r : Registry}
    (hpoints : r.points.Holds l) (hkeys : (former.map Prod.fst).Nodup)
    (hformer : ∀ id slot, (id, some slot) ∈ former →
      r.ids[id]? = none ∧ ∃ p, r.points.get? slot = some p ∧ p.id = id) :
    ∃ r', r.reinstate former = .ok r' ∧ r.Reinstates former l r' := by
  induction former generalizing r with
  | nil =>
      exact ⟨r, rfl, rfl, rfl, hpoints, by simp, fun _ _ => rfl, by simp, fun _ _ => rfl⟩
  | cons x rest ih =>
      obtain ⟨id, old⟩ := x
      obtain ⟨hnew, hrest⟩ := List.nodup_cons.1 hkeys
      cases old with
      | none =>
          obtain ⟨r', hok, hr⟩ := ih hpoints hrest fun i slot hmem =>
            hformer i slot (List.mem_cons_of_mem _ hmem)
          exact ⟨r', hok, hr.skip⟩
      | some slot =>
          obtain ⟨hid, p, hp, hpid⟩ := hformer id slot List.mem_cons_self
          -- later ids are others, and so are their points, which bear their ids
          have hother : ∀ i s, (i, some s) ∈ rest → i ≠ id ∧ s ≠ slot := by
            intro i s hmem
            have hne : i ≠ id := fun heq => hnew (List.mem_map.2 ⟨(i, some s), hmem, heq⟩)
            refine ⟨hne, fun heq => hne ?_⟩
            obtain ⟨-, q, hq, hqid⟩ := hformer i s (List.mem_cons_of_mem _ hmem)
            rw [heq, hp] at hq
            rw [← hqid, ← hpid, Option.some.inj hq]
          obtain ⟨r', hok, hr⟩ := ih (r := { r with
              points := (r.points.replace slot { p with live := true }).2
              ids := r.ids.insert id slot }) (hpoints.replace slot _) hrest (by
            intro i s hmem
            obtain ⟨hne, hslot⟩ := hother i s hmem
            obtain ⟨hi, q, hq, hqid⟩ := hformer i s (List.mem_cons_of_mem _ hmem)
            refine ⟨?_, q, ?_, hqid⟩
            · rw [getElem?_insert_id, if_neg (Ne.symm hne), hi]
            · rw [Slots.get?_replace_of_ne _ _ hslot, hq])
          refine ⟨r', ?_, hr.give hp hother⟩
          have hcontains : ¬ r.ids.contains id = true := fun hc =>
            not_mem_iff_getElem?_id.2 hid (Std.TreeMap.contains_iff_mem.1 hc)
          rw [reinstate, if_neg hcontains, r.points.setLive_eq hp]
          exact hok

end Registry

namespace Tree

variable {t t' : Tree}

/-- How a flush ends when a node refuses: nodes and their slots are as before, nothing waits, and
every id stands for the point that it had at the last flush. -/
structure RollsBack (t t' : Tree) : Prop where
  shape : t'.shape = t.shape
  metric : t'.metric = t.metric
  root : t'.root = t.root
  arrivals : t'.arrivals = []
  prior : t'.prior = ∅
  labels : ∀ slot, t'.labels.get? slot = t.labels.get? slot
  points : t'.points.Holds t.held
  ids : ∀ id, t'.ids[id]? = t.placedSlot id
  entries : ∀ slot ∈ t.held,
    (t'.points.get? slot).map Point.entry = (t.points.get? slot).map Point.entry

/-- Points that nodes hold keep their fingerprints. -/
theorem RollsBack.valueAt (hb : t.RollsBack t') {slot : Nat} (hslot : slot ∈ t.held) :
    t'.points.valueAt slot = t.points.valueAt slot := by
  have hvalue : ∀ points : Slots Point,
      points.valueAt slot = ((points.get? slot).map Point.entry).elim 0 Prod.snd := by
    intro points
    unfold Slots.valueAt Slots.heldAt
    cases points.get? slot <;> rfl
  rw [hvalue, hvalue, hb.entries slot hslot]

theorem mem_toList_prior {id : Int64} {former : Option Nat} :
    (id, former) ∈ t.prior.toList ↔ t.prior[id]? = some former :=
  Std.TreeMap.mem_toList_iff_getElem?_eq_some

/-- The registry once the points of the batch have been freed and have lost their ids. -/
def dropped (t : Tree) : Registry := t.batch.foldl Registry.unregister t.swept.toRegistry

/-- The tree with its nodes and with another registry. -/
def rolledBack (t : Tree) (created : Nat) (r : Registry) : Tree :=
  { t with labels := t.labels.lend () created, toRegistry := r }

section rollback

variable (h : t.Sound)
include h

/-- Ids that stand for a waiting point lose it, and the others keep theirs. -/
theorem dropped_eq : ∃ ids : Std.TreeMap Int64 Nat, t.dropped =
      { t.swept.toRegistry with
        points := t.swept.points.freeAll (t.batch.map Held.slot)
        ids := ids } ∧
    (∀ (id : Int64) slot, t.ids[id]? = some slot → slot ∈ t.arrivals → ids[id]? = none) ∧
    ∀ id : Int64, (∀ slot ∈ t.arrivals, t.ids[id]? ≠ some slot) → ids[id]? = t.ids[id]? := by
  obtain ⟨ids, hfold, hids⟩ := Registry.foldl_unregister t.batch t.swept.toRegistry
  refine ⟨ids, hfold, fun id slot hid harrived => ?_, fun id hnone => ?_⟩
  · obtain ⟨p, hp, hpid, hlive⟩ := h.exists_point hid
    rw [hids, if_pos]
    exact ⟨⟨slot, p⟩, mem_batch_of_live harrived hp hlive, hpid, hid⟩
  · rw [hids, if_neg]
    · rfl
    · rintro ⟨x, hx, -, hslot⟩
      exact hnone x.slot (mem_batch hx).1 hslot

theorem holds_dropped : (t.swept.points.freeAll (t.batch.map Held.slot)).Holds t.held :=
  ((holds_swept h).perm List.perm_append_comm).freeAll

theorem get?_dropped {slot : Nat} (hslot : slot ∈ t.held) :
    (t.swept.points.freeAll (t.batch.map Held.slot)).get? slot = t.points.get? slot := by
  rw [Slots.get?_freeAll_of_not_mem _ fun hmem => ?_, get?_swept_of_held h hslot]
  obtain ⟨x, hx, rfl⟩ := List.mem_map.1 hmem
  exact h.not_mem_arrivals hslot (mem_batch hx).1

/-- The ids that the tree remembers a point for can have it back. -/
theorem exists_reinstate_dropped :
    ∃ r, t.dropped.reinstate t.prior.toList = .ok r ∧
      t.dropped.Reinstates t.prior.toList t.held r := by
  obtain ⟨ids, heq, htaken, -⟩ := dropped_eq h
  rw [heq]
  refine Registry.exists_reinstate (holds_dropped h) nodup_keys_id fun id slot hmem => ?_
  obtain ⟨hheld, ⟨p, hp, hpid, -⟩, hid⟩ := h.former id slot (mem_toList_prior.1 hmem)
  obtain ⟨a, ha⟩ := mem_iff_getElem?_id.1 hid
  have hprior : id ∈ t.prior := mem_iff_getElem?_id.2 ⟨_, mem_toList_prior.1 hmem⟩
  exact ⟨htaken id a ha (h.waiting id a hprior ha), p, (get?_dropped h hheld).trans hp, hpid⟩

variable {created : Nat} {r : Registry}

/-- Every id stands for the point that it had at the last flush. -/
theorem ids_reinstated
    (hr : t.dropped.Reinstates t.prior.toList t.held r) (id : Int64) :
    r.ids[id]? = t.placedSlot id := by
  obtain ⟨ids, heq, htaken, hkept⟩ := dropped_eq h
  have hids : t.dropped.ids = ids := by rw [heq]
  unfold placedSlot
  split
  next former hprior =>
    -- the id was registered since the last flush: it gets its former point back, or none
    cases former with
    | some slot => exact hr.given id slot (mem_toList_prior.2 hprior)
    | none =>
        rw [hr.kept id fun slot hmem => ?_, hids]
        · cases hid : t.ids[id]? with
          | some slot =>
              exact htaken id slot hid
                (h.waiting id slot (mem_iff_getElem?_id.2 ⟨_, hprior⟩) hid)
          | none =>
              rw [hkept id fun slot _ heq => by rw [hid] at heq; cases heq]
              exact hid
        · rw [mem_toList_prior, hprior] at hmem
          cases hmem
  next hprior =>
    -- the id was not registered since, so its point does not wait
    rw [hr.kept id fun slot hmem => ?_, hids, hkept id fun slot harrived hid => ?_]
    · exact h.not_mem_arrivals
        (h.mem_held_of_ids hid (not_mem_iff_getElem?_id.2 hprior)) harrived
    · rw [mem_toList_prior, hprior] at hmem
      cases hmem

/-- A point that a node holds is revived or as it was. -/
theorem get?_reinstated (hr : t.dropped.Reinstates t.prior.toList t.held r)
    {slot : Nat} (hslot : slot ∈ t.held) :
    (∃ (id : Int64) (p : Point), t.prior[id]? = some (some slot) ∧ t.points.get? slot = some p ∧
        r.points.get? slot = some { p with live := true }) ∨
      ((∀ id : Int64, t.prior[id]? ≠ some (some slot)) ∧
        r.points.get? slot = t.points.get? slot) := by
  obtain ⟨ids, heq, -⟩ := dropped_eq h
  have hpoints : t.dropped.points.get? slot = t.points.get? slot := by
    rw [heq]
    exact get?_dropped h hslot
  by_cases hex : ∃ id : Int64, t.prior[id]? = some (some slot)
  · obtain ⟨id, hid⟩ := hex
    obtain ⟨p, hp, hlive⟩ := hr.revived id slot (mem_toList_prior.2 hid)
    exact .inl ⟨id, p, hid, hpoints ▸ hp, hlive⟩
  · have hnone : ∀ id : Int64, t.prior[id]? ≠ some (some slot) := fun id hid => hex ⟨id, hid⟩
    exact .inr ⟨hnone, (hr.untouched slot fun id hmem => hnone id (mem_toList_prior.1 hmem)).trans
      hpoints⟩

theorem rollsBack_reinstated (hr : t.dropped.Reinstates t.prior.toList t.held r) :
    t.RollsBack (t.rolledBack created r) := by
  have hids := ids_reinstated h hr
  obtain ⟨ids, heq, -⟩ := dropped_eq h
  refine ⟨rfl, rfl, rfl, ?_, ?_, fun slot => ?_, hr.points, hids, fun slot hslot => ?_⟩
  · rw [rolledBack, hr.arrivals, heq]
    rfl
  · rw [rolledBack, hr.prior, heq]
    rfl
  · exact h.labels.get?_lend () created slot
  · rcases get?_reinstated h hr hslot with ⟨id, p, -, hp, hlive⟩ | ⟨-, hsame⟩
    · rw [hp, rolledBack, hlive]
      rfl
    · rw [rolledBack, hsame]

/-- After the rollback an id stands for its live point. -/
theorem ids_iff_reinstated (hr : t.dropped.Reinstates t.prior.toList t.held r)
    (id : Int64) (slot : Nat) : r.ids[id]? = some slot ↔
      ∃ p, r.points.get? slot = some p ∧ p.id = id ∧ p.live = true := by
  rw [ids_reinstated h hr]
  constructor
  · intro hplaced
    obtain ⟨hheld, p, hp, hpid⟩ := h.exists_placed hplaced
    rcases get?_reinstated h hr hheld with ⟨i, q, -, hq, hlive⟩ | ⟨hnone, hsame⟩
    · rw [hp] at hq
      obtain rfl := Option.some.inj hq
      exact ⟨_, hlive, hpid, rfl⟩
    · rw [hsame]
      unfold placedSlot at hplaced
      split at hplaced
      next former hprior => exact absurd (hplaced ▸ hprior) (hnone id)
      next => exact h.exists_point hplaced
  · rintro ⟨p, hp, hpid, hlive⟩
    have hheld := hr.points.mem_of_get? hp
    unfold placedSlot
    rcases get?_reinstated h hr hheld with ⟨i, q, hprior, hq, hrevived⟩ | ⟨hnone, hsame⟩
    · -- a revived point is remembered for the id that it bears
      obtain ⟨-, ⟨q', hq', hqid, -⟩, -⟩ := h.former i slot hprior
      rw [hq] at hq'
      obtain rfl := Option.some.inj hq'
      rw [hrevived] at hp
      obtain rfl := Option.some.inj hp
      obtain rfl : i = id := hqid.symm.trans hpid
      rw [hprior]
    · -- a point that was live before belonged to its id, and nothing is remembered for the id
      rw [hsame] at hp
      have hid := hpid ▸ h.ids_of_live hp hlive
      have hnew : id ∉ t.prior := fun hmem =>
        h.not_mem_arrivals hheld (h.waiting id slot hmem hid)
      rw [not_mem_iff_getElem?_id.1 hnew]
      exact hid

/-- **A refused batch leaves a sound tree.** -/
theorem sound_reinstated (hr : t.dropped.Reinstates t.prior.toList t.held r) :
    (t.rolledBack created r).Sound := by
  have hb : t.RollsBack (t.rolledBack created r) := rollsBack_reinstated h hr
  refine ⟨h.shape, ?_, ?_, fun root hroot => ?_, ids_iff_reinstated h hr, ?_, ?_, ?_⟩
  · rw [hb.arrivals, List.append_nil]
    exact hb.points
  · exact h.labels.lend () created
  · refine (h.root root hroot).congr fun slot hslot => hb.valueAt ?_
    rw [held, show t.root = some root from hroot]
    exact hslot
  · intro slot hslot
    rw [hb.arrivals] at hslot
    exact absurd hslot (by simp)
  · intro id slot hid
    rw [hb.prior] at hid
    exact absurd hid (by simp)
  · intro id slot hid
    rw [hb.prior] at hid
    exact absurd hid (by simp)

end rollback

/-! ### The flush -/

/-- The batch can be handed to the root when it is not empty. -/
theorem place_batch_cases (h : t.Sound) (hne : t.batch ≠ []) :
    (∃ fault created, place t.shape t.metric t.swept.points t.labels t.root t.batch =
      .error (.refused fault created)) ∨
      ∃ root p minted gone dead,
        place t.shape t.metric t.swept.points t.labels t.root t.batch = .ok (some root, p) ∧
          Progress.Advances { labels := t.labels } p minted gone dead ∧
          Settlement t.shape t.metric t.swept.points [⟨t.root, t.batch⟩] [root] minted gone dead :=
  place_cases h.shape t.labels hne (fun _ hx => heldAt_swept h hx) (sound_root_swept h)
    (holds_swept h)

/-- **A flush ends in one of two ways, and leaves a sound tree.**  When a node refuses, the fault
names the entries of the batch in order of registration. -/
theorem flush_cases (h : t.Sound) :
    ∃ t', t'.Sound ∧
      ((t.flush = .ok (t', .ok ()) ∧ t.Commits t') ∨
        ∃ fault, t.flush = .ok (t', .error (.batchRolledBack fault (t.batch.map Held.entry))) ∧
          t.batch ≠ [] ∧ t.RollsBack t') := by
  rw [flush_eq h]
  by_cases hempty : t.batch = []
  · refine ⟨t.swept, sound_swept h hempty, .inl ⟨?_, commits_swept h⟩⟩
    rw [hempty]
    rfl
  · have hcond : ¬ t.batch.isEmpty = true := by simpa using hempty
    rw [if_neg hcond]
    rcases place_batch_cases h hempty with ⟨fault, created, hplace⟩ |
      ⟨root, p, minted, gone, dead, hplace, hadv, hs⟩
    · -- a node refuses: what was taken is freed, and the former points are given back
      obtain ⟨r, hok, hr⟩ := exists_reinstate_dropped h
      have hwithdraw : t.swept.toRegistry.withdraw t.taken.1 = .ok r := hok
      refine ⟨t.rolledBack created r, sound_reinstated h hr,
        .inr ⟨fault, ?_, hempty, rollsBack_reinstated h hr⟩⟩
      rw [hplace]
      simp only [rollback, hwithdraw, ok_bind]
      rfl
    · refine ⟨_, sound_commit h hadv hs, .inl ⟨?_, commits_commit h hadv hs⟩⟩
      rw [hplace]

/-- The outcome of a flush, and the tree that it leaves. -/
inductive Flushes (t : Tree) : Except Fault Unit → Tree → Prop where
  | commits {t' : Tree} (hok : t.flush = .ok (t', .ok ())) (hsound : t'.Sound)
      (hc : t.Commits t') : Flushes t (.ok ()) t'
  | rollsBack {t' : Tree} (fault : Fault)
      (hok : t.flush = .ok (t', .error (.batchRolledBack fault (t.batch.map Held.entry))))
      (hne : t.batch ≠ []) (hsound : t'.Sound) (hb : t.RollsBack t') :
      Flushes t (.error (.batchRolledBack fault (t.batch.map Held.entry))) t'

theorem exists_flush (h : t.Sound) : ∃ t' outcome, t.flush = .ok (t', outcome) ∧
    t.Flushes outcome t' := by
  obtain ⟨t', hsound, ⟨hok, hc⟩ | ⟨fault, hok, hne, hb⟩⟩ := flush_cases h
  · exact ⟨t', _, hok, .commits hok hsound hc⟩
  · exact ⟨t', _, hok, .rollsBack fault hok hne hsound hb⟩

namespace Flushes

variable {outcome : Except Fault Unit}

theorem sound (hf : t.Flushes outcome t') : t'.Sound := by
  cases hf with
  | commits _ hsound hc => exact hsound
  | rollsBack _ _ _ hsound hb => exact hsound

theorem shape (hf : t.Flushes outcome t') : t'.shape = t.shape := by
  cases hf with
  | commits _ _ hc => exact hc.shape
  | rollsBack _ _ _ _ hb => exact hb.shape

theorem metric (hf : t.Flushes outcome t') : t'.metric = t.metric := by
  cases hf with
  | commits _ _ hc => exact hc.metric
  | rollsBack _ _ _ _ hb => exact hb.metric

/-- After a flush nothing waits. -/
theorem arrivals (hf : t.Flushes outcome t') : t'.arrivals = [] := by
  cases hf with
  | commits _ _ hc => exact hc.arrivals
  | rollsBack _ _ _ _ hb => exact hb.arrivals

/-- After a flush nothing is remembered. -/
theorem prior (hf : t.Flushes outcome t') : t'.prior = ∅ := by
  cases hf with
  | commits _ _ hc => exact hc.prior
  | rollsBack _ _ _ _ hb => exact hb.prior

end Flushes

/-- **With a sortable metric a flush succeeds.** -/
theorem Flushes.eq_ok_of_sortable {outcome : Except Fault Unit} (hf : t.Flushes outcome t')
    (h : t.Sound) (hd : t.metric.Sortable) : outcome = .ok () := by
  cases hf with
  | commits => rfl
  | rollsBack fault hok hne hsound hb =>
      obtain ⟨r, hr⟩ := exists_place h.shape hd t.labels hne (fun _ hx => heldAt_swept h hx)
        (sound_root_swept h) (holds_swept h)
      rw [flush_eq h, if_neg (by simpa using hne), hr] at hok
      cases hok

end Tree

end Vantage
