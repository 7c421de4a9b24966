/-
**What is true of a tree between its operations.**

The occupied slots of points are those that nodes hold and those that wait, each once, and the
occupied slots of nodes are those of the tree. An id has an entry exactly when one of its points is
live, and then it stands for that point. For an id that was registered since the last flush the tree
remembers a point that the nodes hold and that is dead, or nothing.

Main definitions:

* `Tree.held`, `Tree.slots` — the slots of points and nodes that the nodes account for;
* `Tree.Sound` — the invariant;
* `Tree.placedSlot` — the point that an id had at the last flush, unless it was deleted since;
* `Point.retire` — a point as it is once its id has lost its entry;
* `Tree.freed` — the points in the order in which giving up everything frees them.

Main results:

* `Tree.sound_fresh` — a tree without entries is sound;
* `Tree.Registers.sound`, `Tree.Deletes.sound` — **new entries and deleted ones keep a tree sound**;
* `Tree.drain_eq`, `Tree.clear_eq` — giving up everything frees every node and every point, and
  leaves a tree without entries.
-/

import Vantage.Proofs.Settling
import Vantage.Tree.Flush
import Vantage.Tree.Search

set_option relaxedAutoImplicit false
set_option autoImplicit false

namespace Vantage

/-! ### Maps by id -/

section maps

variable {α : Type} {m : Std.TreeMap Int64 α} {id i : Int64} {a : α}

theorem getElem?_insert_id : (m.insert id a)[i]? = if id = i then some a else m[i]? := by
  rw [Std.TreeMap.getElem?_insert]
  simp only [Std.compare_eq_iff_eq]

theorem getElem?_erase_id : (m.erase id)[i]? = if id = i then none else m[i]? := by
  rw [Std.TreeMap.getElem?_erase]
  simp only [Std.compare_eq_iff_eq]

theorem getElem?_insertIfNew_id :
    (m.insertIfNew id a)[i]? = if id = i ∧ id ∉ m then some a else m[i]? := by
  rw [Std.TreeMap.getElem?_insertIfNew]
  simp only [Std.compare_eq_iff_eq]

theorem mem_insert_id : i ∈ m.insert id a ↔ id = i ∨ i ∈ m := by
  rw [Std.TreeMap.mem_insert, Std.compare_eq_iff_eq]

theorem mem_insertIfNew_id : i ∈ m.insertIfNew id a ↔ id = i ∨ i ∈ m := by
  rw [Std.TreeMap.mem_insertIfNew, Std.compare_eq_iff_eq]

theorem mem_iff_getElem?_id : i ∈ m ↔ ∃ a, m[i]? = some a := by
  rw [Std.TreeMap.mem_iff_isSome_getElem?, Option.isSome_iff_exists]

theorem not_mem_iff_getElem?_id : i ∉ m ↔ m[i]? = none := by
  rw [Std.TreeMap.mem_iff_isSome_getElem?, Option.not_isSome_iff_eq_none]

theorem nodup_keys_id : (m.toList.map Prod.fst).Nodup := by
  rw [List.Nodup, List.pairwise_map]
  refine Std.TreeMap.distinct_keys_toList.imp fun hne heq => hne ?_
  rw [heq]
  exact Std.compare_self

theorem nodup_toList_id : m.toList.Nodup := List.Nodup.of_map Prod.fst nodup_keys_id

/-- Maps in which every id has the same value list the same entries. -/
theorem equiv_of_getElem?_id {m' : Std.TreeMap Int64 α} (h : ∀ i : Int64, m[i]? = m'[i]?) :
    m.Equiv m' := by
  refine .of_toList_perm ?_
  refine (List.perm_ext_iff_of_nodup nodup_toList_id nodup_toList_id).2 fun x => ?_
  obtain ⟨i, a⟩ := x
  rw [Std.TreeMap.mem_toList_iff_getElem?_eq_some, Std.TreeMap.mem_toList_iff_getElem?_eq_some, h]

end maps

/-! ### Retired points -/

/-- A point as it is once the given id has lost its entry. -/
def Point.retire (id : Int64) (p : Point) : Point :=
  if p.id = id then { p with live := false } else p

namespace Point

@[simp] theorem id_retire (id : Int64) (p : Point) : (p.retire id).id = p.id := by
  unfold retire
  split <;> rfl

@[simp] theorem value_retire (id : Int64) (p : Point) : (p.retire id).value = p.value := by
  unfold retire
  split <;> rfl

theorem live_retire (id : Int64) (p : Point) :
    (p.retire id).live = true ↔ p.id ≠ id ∧ p.live = true := by
  unfold retire
  split <;> simp_all

theorem retire_of_dead {id : Int64} {p : Point} (h : p.live = false) : p.retire id = p := by
  obtain ⟨i, v, live⟩ := p
  obtain rfl : live = false := h
  unfold retire
  split <;> rfl

theorem retire_of_ne {id : Int64} {p : Point} (h : p.id ≠ id) : p.retire id = p := if_neg h

end Point

/-- Taking all points out of a node loses none. -/
theorem Node.perm_purge {κ : Type} (node : Node Held κ) :
    (node.purge.live ++ node.purge.dead).Perm node.points := by
  cases node with
  | leaf l =>
      simp only [Node.purge, List.partition_eq_filter_filter]
      exact List.filter_append_perm _ _
  | branch b =>
      simp only [Node.purge, List.partition_eq_filter_filter]
      exact List.filter_append_perm _ _

namespace Tree

variable {t : Tree}

/-! ### The invariant -/

/-- The slots of the points that nodes hold. -/
def held (t : Tree) : List Nat := t.root.elim [] Subtree.held

/-- The slots of the nodes. -/
def slots (t : Tree) : List Nat := t.root.elim [] Subtree.slots

/-- **The invariant.** -/
structure Sound (t : Tree) : Prop where
  shape : t.shape.Sound
  points : t.points.Holds (t.held ++ t.arrivals)
  labels : t.labels.Holds t.slots
  root : ∀ root ∈ t.root, root.Sound t.shape t.metric t.points
  /-- An id stands for its live point. -/
  ids : ∀ id slot, t.ids[id]? = some slot ↔
    ∃ p, t.points.get? slot = some p ∧ p.id = id ∧ p.live = true
  /-- The ids of points that wait were registered since the last flush. -/
  registered : ∀ slot ∈ t.arrivals, ∀ p, t.points.get? slot = some p → p.id ∈ t.prior
  /-- An id registered since the last flush stands for a point that waits. -/
  waiting : ∀ id slot, id ∈ t.prior → t.ids[id]? = some slot → slot ∈ t.arrivals
  /-- A point that is remembered for an id is held by a node, is dead, and has been replaced. -/
  former : ∀ id slot, t.prior[id]? = some (some slot) → slot ∈ t.held ∧
    (∃ p, t.points.get? slot = some p ∧ p.id = id ∧ p.live = false) ∧ id ∈ t.ids

/-- The slot of the point that an id had at the last flush, unless it was deleted since. -/
def placedSlot (t : Tree) (id : Int64) : Option Nat :=
  match t.prior[id]? with
  | some former => former
  | none => t.ids[id]?

theorem sound_fresh {shape : Shape} (h : shape.Sound) (metric : Metric) :
    (fresh shape metric).Sound where
  shape := h
  points := .empty
  labels := .empty
  root root hroot := absurd hroot (by simp [fresh])
  ids id slot := by simp [fresh]
  registered slot hslot := absurd hslot (by simp [fresh])
  waiting id slot hid := absurd hid (by simp [fresh])
  former id slot hid := absurd hid (by simp [fresh])

/-- A tree is made for shapes that can be used. -/
theorem ofShape_eq_ok {shape : Shape} {metric : Metric} :
    ofShape shape metric = .ok t ↔ shape.Sound ∧ t = fresh shape metric := by
  unfold ofShape Shape.Sound
  cases shape.defect? <;> simp [eq_comm]

namespace Sound

/-- Points that nodes hold do not wait. -/
theorem not_mem_arrivals (h : t.Sound) {slot : Nat} (hheld : slot ∈ t.held) :
    slot ∉ t.arrivals :=
  fun harrived => List.disjoint_of_nodup_append h.points.nodup hheld harrived

theorem exists_point (h : t.Sound) {id : Int64} {slot : Nat} (hid : t.ids[id]? = some slot) :
    ∃ p, t.points.get? slot = some p ∧ p.id = id ∧ p.live = true :=
  (h.ids id slot).1 hid

/-- An id that was not registered since the last flush stands for a point that a node holds. -/
theorem mem_held_of_ids (h : t.Sound) {id : Int64} {slot : Nat} (hid : t.ids[id]? = some slot)
    (hnew : id ∉ t.prior) : slot ∈ t.held := by
  obtain ⟨p, hp, rfl, -⟩ := h.exists_point hid
  rcases List.mem_append.1 (h.points.mem_of_get? hp) with hheld | harrived
  · exact hheld
  · exact absurd (h.registered slot harrived p hp) hnew

/-- Only the point of an id is live. -/
theorem ids_of_live (h : t.Sound) {slot : Nat} {p : Point} (hp : t.points.get? slot = some p)
    (hlive : p.live = true) : t.ids[p.id]? = some slot :=
  (h.ids p.id slot).2 ⟨p, hp, rfl, hlive⟩

/-- A point remembered for an id, or the point of an id that was not registered again, is held by
a node and belongs to the id. -/
theorem exists_placed (h : t.Sound) {id : Int64} {slot : Nat}
    (hslot : t.placedSlot id = some slot) :
    slot ∈ t.held ∧ ∃ p, t.points.get? slot = some p ∧ p.id = id := by
  unfold placedSlot at hslot
  split at hslot
  next former hprior =>
    subst hslot
    obtain ⟨hheld, ⟨p, hp, hid, -⟩, -⟩ := h.former id slot hprior
    exact ⟨hheld, p, hp, hid⟩
  next hprior =>
    have hnew := not_mem_iff_getElem?_id.2 hprior
    obtain ⟨p, hp, hid, -⟩ := h.exists_point hslot
    exact ⟨h.mem_held_of_ids hslot hnew, p, hp, hid⟩

/-- An id that does not stand for a waiting point stands for the one it had at the last flush. -/
theorem placedSlot_of_not_waiting (h : t.Sound) {id : Int64}
    (hid : ∀ slot ∈ t.arrivals, t.ids[id]? ≠ some slot) : t.placedSlot id = t.ids[id]? := by
  unfold placedSlot
  split
  next former hprior =>
    have hmem : id ∈ t.prior := mem_iff_getElem?_id.2 ⟨former, hprior⟩
    have hnone : t.ids[id]? = none := Option.eq_none_iff_forall_ne_some.2 fun slot hslot =>
      hid slot (h.waiting id slot hmem hslot) hslot
    cases former with
    | none => exact hnone.symm
    | some old => exact absurd (h.former id old hprior).2.2 (not_mem_iff_getElem?_id.2 hnone)
  next => rfl

end Sound

/-! ### Taking an entry from an id -/

/-- Marking the point of an id as dead is retiring the id in every slot. -/
theorem exists_retire (h : t.Sound) (id : Int64) :
    ∃ points, (match t.ids[id]? with
        | some slot => t.points.setLive slot false
        | none => pure t.points) = .ok points ∧
      points.Holds (t.held ++ t.arrivals) ∧
      ∀ slot, points.get? slot = (t.points.get? slot).map (Point.retire id) := by
  cases hid : t.ids[id]? with
  | none =>
      refine ⟨t.points, rfl, h.points, fun slot => ?_⟩
      cases hp : t.points.get? slot with
      | none => rfl
      | some p =>
          rw [Option.map_some]
          cases hlive : p.live with
          | false => rw [Point.retire_of_dead hlive]
          | true =>
              rw [Point.retire_of_ne fun heq => ?_]
              rw [← heq, h.ids_of_live hp hlive] at hid
              cases hid
  | some old =>
      obtain ⟨q, hq, hqid, hqlive⟩ := h.exists_point hid
      refine ⟨_, t.points.setLive_eq hq false, h.points.replace old _, fun slot => ?_⟩
      rcases eq_or_ne slot old with rfl | hne
      · rw [Slots.get?_replace_self _ hq, hq, Option.map_some, Point.retire, if_pos hqid]
      · rw [Slots.get?_replace_of_ne _ _ hne]
        cases hp : t.points.get? slot with
        | none => rfl
        | some p =>
            rw [Option.map_some]
            cases hlive : p.live with
            | false => rw [Point.retire_of_dead hlive]
            | true =>
                rw [Point.retire_of_ne fun heq => hne ?_]
                have hslot := h.ids_of_live hp hlive
                rw [heq, hid] at hslot
                exact (Option.some.inj hslot).symm

/-- Retiring an id changes no fingerprint. -/
theorem valueAt_of_retire {points points' : Slots Point} {id : Int64} {slot : Nat}
    (h : points'.get? slot = (points.get? slot).map (Point.retire id)) :
    points'.valueAt slot = points.valueAt slot := by
  unfold Slots.valueAt Slots.heldAt
  rw [h]
  cases points.get? slot <;> simp [Held.value]

/-! ### New entries -/

/-- What registering an entry does: the id is retired everywhere, and a free slot takes its new
point. -/
structure Registers (t : Tree) (id : Int64) (value : UInt64) (slot : Nat) (t' : Tree) : Prop where
  shape : t'.shape = t.shape
  metric : t'.metric = t.metric
  root : t'.root = t.root
  labels : t'.labels = t.labels
  arrivals : t'.arrivals = t.arrivals ++ [slot]
  ids : t'.ids = t.ids.insert id slot
  prior : t'.prior = t.prior.insertIfNew id t.ids[id]?
  free : slot ∉ t.held ++ t.arrivals
  points : t'.points.Holds (slot :: (t.held ++ t.arrivals))
  self : t'.points.get? slot = some { id, value }
  others : ∀ other, other ≠ slot →
    t'.points.get? other = (t.points.get? other).map (Point.retire id)

theorem exists_register (h : t.Sound) (id : Int64) (value : UInt64) :
    ∃ slot t', t.register id value = .ok t' ∧ t.Registers id value slot t' := by
  obtain ⟨points, hretire, hholds, hget⟩ := exists_retire h id
  have hok : t.register id value = .ok { t with
      points := (points.alloc { id, value }).2
      ids := t.ids.insert id (points.alloc { id, value }).1
      prior := t.prior.insertIfNew id t.ids[id]?
      arrivals := t.arrivals ++ [(points.alloc { id, value }).1] } := by
    unfold register Registry.register
    cases hid : t.ids[id]? with
    | none =>
        rw [hid, pure_eq_ok] at hretire
        simp only [pure_eq_ok, hretire, ok_bind]
    | some old =>
        rw [hid] at hretire
        simp only [pure_eq_ok, hretire, ok_bind]
  refine ⟨_, _, hok, ⟨rfl, rfl, rfl, rfl, rfl, rfl, rfl, hholds.alloc_not_mem _,
    hholds.alloc _, hholds.get?_alloc _, fun other hne => ?_⟩⟩
  rw [Slots.get?_alloc_of_ne _ _ hne, hget]

namespace Registers

variable {t' : Tree} {id : Int64} {value : UInt64} {slot : Nat}

theorem held (hr : t.Registers id value slot t') : t'.held = t.held := by
  rw [Tree.held, Tree.held, hr.root]

/-- Points that the tree had are there still, retired if they were points of the id. -/
theorem get?_of_mem (hr : t.Registers id value slot t') {other : Nat}
    (hmem : other ∈ t.held ++ t.arrivals) :
    t'.points.get? other = (t.points.get? other).map (Point.retire id) :=
  hr.others other fun heq => hr.free (heq ▸ hmem)

/-- The point in a slot is the new one or an old one, retired if it was a point of the id. -/
theorem cases_get? (hr : t.Registers id value slot t') (h : t.Sound) {other : Nat} {p : Point}
    (hp : t'.points.get? other = some p) :
    (other = slot ∧ p = { id, value }) ∨
      (other ≠ slot ∧ other ∈ t.held ++ t.arrivals ∧
        ∃ q, t.points.get? other = some q ∧ q.retire id = p) := by
  rcases eq_or_ne other slot with rfl | hne
  · rw [hr.self] at hp
    exact .inl ⟨rfl, (Option.some.inj hp).symm⟩
  · rw [hr.others other hne] at hp
    obtain ⟨q, hq, hqp⟩ := Option.map_eq_some_iff.1 hp
    exact .inr ⟨hne, h.points.mem_of_get? hq, q, hq, hqp⟩

/-- What the tree remembers of the last flush stays the same. -/
theorem placedSlot (hr : t.Registers id value slot t') (i : Int64) :
    t'.placedSlot i = t.placedSlot i := by
  unfold Tree.placedSlot
  rw [hr.prior, hr.ids, getElem?_insertIfNew_id, getElem?_insert_id]
  rcases eq_or_ne id i with rfl | hne
  · by_cases hmem : id ∈ t.prior
    · obtain ⟨former, hformer⟩ := mem_iff_getElem?_id.1 hmem
      rw [if_neg fun hc => hc.2 hmem, hformer]
    · rw [if_pos ⟨rfl, hmem⟩, not_mem_iff_getElem?_id.1 hmem]
  · rw [if_neg fun hc => hne hc.1, if_neg hne]

/-- The id stands for the new point, and every other id for the one it had. -/
theorem ids_iff (hr : t.Registers id value slot t') (h : t.Sound) (i : Int64) (other : Nat) :
    t'.ids[i]? = some other ↔
      ∃ p, t'.points.get? other = some p ∧ p.id = i ∧ p.live = true := by
  rw [hr.ids, getElem?_insert_id]
  constructor
  · intro hi
    split at hi
    next heq =>
      obtain rfl := Option.some.inj hi
      exact ⟨_, hr.self, heq, rfl⟩
    next hne =>
      obtain ⟨p, hp, hpid, hlive⟩ := h.exists_point hi
      rw [hr.get?_of_mem (h.points.mem_of_get? hp), hp]
      refine ⟨p, ?_, hpid, hlive⟩
      rw [Option.map_some, Point.retire_of_ne fun heq => hne (heq.symm.trans hpid)]
  · rintro ⟨p, hp, hpid, hlive⟩
    rcases hr.cases_get? h hp with ⟨rfl, rfl⟩ | ⟨hne, hmem, q, hq, rfl⟩
    · rw [if_pos hpid]
    · obtain ⟨hid, hqlive⟩ := (Point.live_retire id q).1 hlive
      rw [Point.id_retire] at hpid
      rw [if_neg fun heq => hid (hpid.trans heq.symm), ← hpid]
      exact h.ids_of_live hq hqlive

/-- A point remembered for an id is remembered rightly. -/
theorem former (hr : t.Registers id value slot t') (h : t.Sound) (i : Int64) (old : Nat)
    (hprior : t'.prior[i]? = some (some old)) :
    old ∈ t.held ∧ (∃ p, t'.points.get? old = some p ∧ p.id = i ∧ p.live = false) ∧
      i ∈ t'.ids := by
  rw [hr.prior, getElem?_insertIfNew_id] at hprior
  rw [hr.ids, mem_insert_id]
  split at hprior
  next hnew =>
    -- the id is registered for the first time since the last flush
    obtain ⟨rfl, hnew⟩ := hnew
    have hold := Option.some.inj hprior
    obtain ⟨p, hp, hpid, -⟩ := h.exists_point hold
    have hheld := h.mem_held_of_ids hold hnew
    refine ⟨hheld, ⟨p.retire id, ?_, by rw [Point.id_retire, hpid], ?_⟩, .inl rfl⟩
    · rw [hr.get?_of_mem (List.mem_append_left _ hheld), hp, Option.map_some]
    · rw [Point.retire, if_pos hpid]
  next =>
    obtain ⟨hheld, ⟨p, hp, hpid, hdead⟩, hmem⟩ := h.former i old hprior
    refine ⟨hheld, ⟨p, ?_, hpid, hdead⟩, .inr hmem⟩
    rw [hr.get?_of_mem (List.mem_append_left _ hheld), hp, Option.map_some,
      Point.retire_of_dead hdead]

/-- **A new entry keeps a tree sound.** -/
theorem sound (hr : t.Registers id value slot t') (h : t.Sound) : t'.Sound where
  shape := hr.shape ▸ h.shape
  points := by
    rw [hr.held, hr.arrivals, ← List.append_assoc]
    exact hr.points.perm (List.perm_append_singleton _ _).symm
  labels := by
    rw [Tree.slots, hr.root, hr.labels]
    exact h.labels
  root root hroot := by
    rw [hr.root] at hroot
    rw [hr.shape, hr.metric]
    refine (h.root root hroot).congr fun other hother => valueAt_of_retire
      (hr.get?_of_mem (List.mem_append_left _ ?_))
    rw [Tree.held, show t.root = some root from hroot]
    exact hother
  ids := hr.ids_iff h
  registered other hother p hp := by
    rw [hr.prior, mem_insertIfNew_id]
    rcases hr.cases_get? h hp with ⟨rfl, rfl⟩ | ⟨hne, hmem, q, hq, rfl⟩
    · exact .inl rfl
    · rw [hr.arrivals, List.mem_append, List.mem_singleton, or_iff_left hne] at hother
      rw [Point.id_retire]
      exact .inr (h.registered other hother q hq)
  waiting i other hi hother := by
    rw [hr.prior, mem_insertIfNew_id] at hi
    rw [hr.ids, getElem?_insert_id] at hother
    rw [hr.arrivals, List.mem_append, List.mem_singleton]
    split at hother
    next => exact .inr (Option.some.inj hother).symm
    next hne => exact .inl (h.waiting i other (hi.resolve_left hne) hother)
  former i old hold := hr.held ▸ hr.former h i old hold

end Registers

/-! ### Deleted entries -/

/-- What deleting an entry does: the id is retired everywhere, and nothing is remembered for it. -/
structure Deletes (t : Tree) (id : Int64) (t' : Tree) : Prop where
  shape : t'.shape = t.shape
  metric : t'.metric = t.metric
  root : t'.root = t.root
  labels : t'.labels = t.labels
  arrivals : t'.arrivals = t.arrivals
  ids : ∀ i : Int64, t'.ids[i]? = if id = i then none else t.ids[i]?
  prior : ∀ i, t'.prior[i]? = if id = i then t.prior[i]?.map fun _ => none else t.prior[i]?
  points : t'.points.Holds (t.held ++ t.arrivals)
  get? : ∀ other, t'.points.get? other = (t.points.get? other).map (Point.retire id)

/-- Deleting an id without an entry does nothing. -/
theorem delete_of_none {id : Int64} (hid : t.ids[id]? = none) : t.delete id = .ok (t, none) := by
  unfold delete Registry.delete
  rw [hid]
  rfl

theorem deletes_of_none (h : t.Sound) {id : Int64} (hid : t.ids[id]? = none) : t.Deletes id t := by
  obtain ⟨points, hretire, hholds, hget⟩ := exists_retire h id
  rw [hid, pure_eq_ok] at hretire
  obtain rfl := Except.ok.inj hretire
  refine ⟨rfl, rfl, rfl, rfl, rfl, fun i => ?_, fun i => ?_, hholds, hget⟩
  · split
    next heq => rw [← heq, hid]
    next => rfl
  · split
    next heq =>
      subst heq
      rcases hprior : t.prior[id]? with _ | _ | old
      · rfl
      · rfl
      · -- a point is remembered only for ids that have an entry
        exact absurd (h.former id old hprior).2.2 (not_mem_iff_getElem?_id.2 hid)
    next => rfl

/-- **Deleting an id answers with its point**, now dead. -/
theorem exists_delete (h : t.Sound) (id : Int64) :
    ∃ t', t.delete id = .ok (t', t.ids[id]?.map fun slot =>
        { (t.points.heldAt slot).point with live := false }) ∧ t.Deletes id t' := by
  cases hid : t.ids[id]? with
  | none => exact ⟨t, delete_of_none hid, deletes_of_none h hid⟩
  | some slot =>
      obtain ⟨p, hp, hpid, hlive⟩ := h.exists_point hid
      obtain ⟨points, hretire, hholds, hget⟩ := exists_retire h id
      rw [hid] at hretire
      refine ⟨{ t with
        points, ids := t.ids.erase id
        prior := if t.prior.contains id then t.prior.insert id none else t.prior }, ?_,
        ⟨rfl, rfl, rfl, rfl, rfl, fun i => getElem?_erase_id, fun i => ?_, hholds, hget⟩⟩
      · unfold delete Registry.delete
        simp only [hid, (t.points.point_eq_ok_iff).2 hp,
          show t.points.setLive slot false = _ from hretire, ok_bind, Option.map_some,
          t.points.heldAt_of_get? hp]
        rfl
      · change (if t.prior.contains id then t.prior.insert id none else t.prior)[i]? = _
        by_cases hcontains : t.prior.contains id = true
        · rw [if_pos hcontains, getElem?_insert_id]
          split
          next heq =>
            obtain ⟨former, hformer⟩ :=
              mem_iff_getElem?_id.1 (Std.TreeMap.contains_iff_mem.1 hcontains)
            rw [← heq, hformer]
            rfl
          next => rfl
        · rw [if_neg hcontains]
          split
          next heq =>
            have hnone := not_mem_iff_getElem?_id.1
              fun hmem => hcontains (Std.TreeMap.contains_iff_mem.2 hmem)
            rw [← heq, hnone]
            rfl
          next => rfl

namespace Deletes

variable {t' : Tree} {id : Int64}

theorem held (hd : t.Deletes id t') : t'.held = t.held := by rw [Tree.held, Tree.held, hd.root]

theorem mem_prior (hd : t.Deletes id t') {i : Int64} : i ∈ t'.prior ↔ i ∈ t.prior := by
  rw [mem_iff_getElem?_id, mem_iff_getElem?_id, hd.prior]
  split
  · cases t.prior[i]? <;> simp
  · rfl

/-- What the tree remembers of the last flush is lost for the id alone. -/
theorem placedSlot (hd : t.Deletes id t') (i : Int64) :
    t'.placedSlot i = if id = i then none else t.placedSlot i := by
  unfold Tree.placedSlot
  rw [hd.prior, hd.ids]
  rcases eq_or_ne id i with rfl | hne
  · rw [if_pos rfl, if_pos rfl, if_pos rfl]
    cases t.prior[id]? <;> rfl
  · rw [if_neg hne, if_neg hne, if_neg hne]

/-- The id stands for nothing, and every other id for the point it had. -/
theorem ids_iff (hd : t.Deletes id t') (h : t.Sound) (i : Int64) (slot : Nat) :
    t'.ids[i]? = some slot ↔ ∃ p, t'.points.get? slot = some p ∧ p.id = i ∧ p.live = true := by
  rw [hd.ids, hd.get?]
  constructor
  · intro hi
    split at hi
    next => cases hi
    next hne =>
      obtain ⟨p, hp, hpid, hlive⟩ := h.exists_point hi
      rw [hp]
      refine ⟨p, ?_, hpid, hlive⟩
      rw [Option.map_some, Point.retire_of_ne fun heq => hne (heq.symm.trans hpid)]
  · rintro ⟨p, hp, hpid, hlive⟩
    obtain ⟨q, hq, rfl⟩ := Option.map_eq_some_iff.1 hp
    obtain ⟨hid, hqlive⟩ := (Point.live_retire id q).1 hlive
    rw [Point.id_retire] at hpid
    rw [if_neg fun heq => hid (hpid.trans heq.symm), ← hpid]
    exact h.ids_of_live hq hqlive

/-- **A deleted entry keeps a tree sound.** -/
theorem sound (hd : t.Deletes id t') (h : t.Sound) : t'.Sound where
  shape := hd.shape ▸ h.shape
  points := by
    rw [hd.held, hd.arrivals]
    exact hd.points
  labels := by
    rw [Tree.slots, hd.root, hd.labels]
    exact h.labels
  root root hroot := by
    rw [hd.root] at hroot
    rw [hd.shape, hd.metric]
    exact (h.root root hroot).congr fun slot _ => valueAt_of_retire (hd.get? slot)
  ids := hd.ids_iff h
  registered slot hslot p hp := by
    rw [hd.arrivals] at hslot
    rw [hd.get?] at hp
    obtain ⟨q, hq, rfl⟩ := Option.map_eq_some_iff.1 hp
    rw [hd.mem_prior, Point.id_retire]
    exact h.registered slot hslot q hq
  waiting i slot hi hslot := by
    rw [hd.mem_prior] at hi
    rw [hd.ids] at hslot
    rw [hd.arrivals]
    split at hslot
    next => cases hslot
    next => exact h.waiting i slot hi hslot
  former i old hold := by
    rw [hd.prior] at hold
    rw [hd.held, hd.get?]
    split at hold
    next => cases hprior : t.prior[i]? <;> simp [hprior] at hold
    next hne =>
      obtain ⟨hheld, ⟨p, hp, hpid, hdead⟩, hmem⟩ := h.former i old hold
      obtain ⟨slot, hslot⟩ := mem_iff_getElem?_id.1 hmem
      refine ⟨hheld, ⟨p, ?_, hpid, hdead⟩, mem_iff_getElem?_id.2 ⟨slot, ?_⟩⟩
      · rw [hp, Option.map_some, Point.retire_of_dead hdead]
      · rw [hd.ids, if_neg hne, hslot]

end Deletes

/-! ### Giving everything up -/

end Tree

namespace Subtree

variable {points points' : Slots Point} {s : Subtree}

/-- The slots of the points of a node in the order in which they are freed when it is given up. -/
def released (points : Slots Point) (s : Subtree) : List Nat :=
  ((s.looked points).purge.live ++ (s.looked points).purge.dead).map Held.slot

/-- A node that is given up frees its points. -/
theorem perm_released (points : Slots Point) (s : Subtree) : (s.released points).Perm s.own := by
  refine ((Node.perm_purge _).map Held.slot).trans (.of_eq ?_)
  rw [looked, Node.points_mapPoints, List.map_map, show Held.slot ∘ points.heldAt = id from rfl,
    List.map_id]
  rfl

theorem released_congr (h : ∀ slot ∈ s.own, points'.get? slot = points.get? slot)
    (hocc : ∀ slot ∈ s.own, points.Occupied slot) : s.released points' = s.released points := by
  have hocc' : ∀ slot ∈ s.own, points'.Occupied slot := by
    intro slot hslot
    rw [Slots.Occupied, h slot hslot]
    exact hocc slot hslot
  have hlook : s.node.lookUp points' = s.node.lookUp points := Node.lookUp_congr h
  rw [Node.lookUp_eq hocc, Node.lookUp_eq hocc'] at hlook
  rw [released, released, looked, looked, Except.ok.inj hlook]

end Subtree

namespace Tree

variable {t : Tree}

/-- **Nodes can be given up in any order** when the stores hold what they should: each of their
slots is freed, and each of their points. -/
theorem release_eq {nodes : List Subtree} {points : Slots Point} {labels : Slots Unit}
    {l : List Nat} (hpoints : points.Holds (nodes.flatMap Subtree.own ++ l))
    (hlabels : labels.Holds (nodes.map Subtree.slot)) :
    release points labels nodes = .ok (points.freeAll (nodes.flatMap (Subtree.released points)),
      labels.freeAll (nodes.map Subtree.slot)) := by
  induction nodes generalizing points labels with
  | nil => rfl
  | cons node rest ih =>
      obtain ⟨u, hu⟩ := hlabels.exists_get? List.mem_cons_self
      have hfree : labels.free node.slot = (some (), (labels.free node.slot).2) := by
        rw [Slots.free_of_some hu]
      rw [List.flatMap_cons, List.append_assoc] at hpoints
      have hlook : node.node.lookUp points = .ok (node.looked points) :=
        Node.lookUp_eq fun slot hslot =>
          (hpoints.occupied slot).2 (List.mem_append_left _ hslot)
      have hreleased := node.perm_released points
      -- the points of the nodes that are left are as they were
      have hothers : rest.flatMap (Subtree.released (points.freeAll (node.released points))) =
          rest.flatMap (Subtree.released points) := by
        refine List.flatMap_congr fun other hother => Subtree.released_congr (fun slot hslot => ?_)
          fun slot hslot => ?_
        all_goals
          have hmem : slot ∈ rest.flatMap Subtree.own ++ l :=
            List.mem_append_left _ (List.mem_flatMap.2 ⟨other, hother, hslot⟩)
        · refine Slots.get?_freeAll_of_not_mem _ fun hown => ?_
          exact List.disjoint_of_nodup_append hpoints.nodup (hreleased.mem_iff.1 hown) hmem
        · exact (hpoints.occupied slot).2 (List.mem_append_right _ hmem)
      have hrest := ih (hpoints.perm (hreleased.symm.append_right _)).freeAll hlabels.free
      rw [hothers] at hrest
      rw [release, hfree]
      simp only [hlook, ok_bind]
      rw [List.flatMap_cons, Slots.freeAll_append, List.map_cons, Slots.freeAll_cons]
      exact hrest

/-- The slots of all points in the order in which they are freed when everything is given up. -/
def freed (t : Tree) : List Nat := t.nodes.flatMap (Subtree.released t.points) ++ t.arrivals

theorem mem_nodes {s : Subtree} : s ∈ t.nodes ↔ ∃ root, t.root = some root ∧ s ∈ root.all := by
  unfold nodes
  cases t.root with
  | none => simp
  | some root => simp [root.rows_perm_all.mem_iff]

/-- The nodes hold what the tree holds. -/
theorem perm_held (t : Tree) : (t.nodes.flatMap Subtree.own).Perm t.held := by
  unfold nodes held
  cases t.root with
  | none => exact .refl _
  | some root => exact root.rows_perm_all.flatMap_right _

/-- A point that the nodes hold is a point of one of them. -/
theorem exists_node_of_mem_held {slot : Nat} (h : slot ∈ t.held) :
    ∃ s ∈ t.nodes, slot ∈ s.node.points :=
  List.mem_flatMap.1 (t.perm_held.mem_iff.2 h)

theorem perm_slots (t : Tree) : (t.nodes.map Subtree.slot).Perm t.slots := by
  unfold nodes slots
  cases t.root with
  | none => exact .refl _
  | some root =>
      refine (root.rows_perm_all.map _).trans (.of_eq ?_)
      rw [List.map_eq_flatMap]
      rfl

/-- Giving everything up frees each point once. -/
theorem perm_freed (t : Tree) : t.freed.Perm (t.held ++ t.arrivals) := by
  refine List.Perm.append_right _ (List.Perm.trans ?_ t.perm_held)
  exact List.Perm.flatMap_left _ fun s _ => s.perm_released t.points

/-- Giving everything up frees the slots of all nodes in level order, and the points of each. -/
theorem drain_eq (h : t.Sound) : t.drain = .ok { t with
    points := t.points.freeAll t.freed
    labels := t.labels.freeAll (t.nodes.map Subtree.slot)
    root := none
    arrivals := []
    ids := ∅
    prior := ∅ } := by
  have hrelease := release_eq (h.points.perm (t.perm_held.symm.append_right _))
    (h.labels.perm t.perm_slots.symm)
  unfold nodes at hrelease
  unfold drain
  simp only [hrelease, ok_bind]
  rw [freed, Slots.freeAll_append]
  rfl

/-- **Giving up everything leaves a tree without entries.** -/
theorem clear_eq (h : t.Sound) : t.clear = .ok (fresh t.shape t.metric) := by
  unfold clear
  rw [drain_eq h]
  rfl

end Tree

end Vantage
