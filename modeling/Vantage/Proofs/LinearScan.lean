/-
**A search finds what a linear scan finds.**

The live points that nodes hold are those of the ids that do not wait, one for each. A search with a
lawful metric finds those of them that lie within the radius, and nothing else; once a flush has
taken all waiting points these are the entries of the snapshot. With the Hamming distance no
operation reports a fault, so that this is so after every run.

Main definitions:

* `Tree.placed` — the live points that nodes hold;
* `Snapshot.scan` — the entries of a snapshot that lie within a radius.

Main results:

* `Tree.Sound.mem_placed` — the points placed are those of the ids that do not wait;
* `Tree.Sound.exists_hits` — **a search finds the placed points within the radius**;
* `Tree.Sound.exists_scan` — once nothing waits, these are what a scan of the snapshot finds;
* `Tree.Sound.fault?_of_sortable` — with a sortable metric no operation reports a fault;
* `Tree.hamming_search` — **the Hamming distance is searched without fail**.
-/

import Vantage.Proofs.Pruning

set_option relaxedAutoImplicit false
set_option autoImplicit false

namespace Vantage

open Binary64 (value le_iff_value isNaN_of_le)

/-- The entries of a snapshot that lie within a radius of a target, with their distances. -/
def Snapshot.scan (d : Metric) (target : UInt64) (radius : Float) (s : Snapshot) :
    List (Entry × Float) :=
  s.entries.filterMap fun e =>
    let gap := d e.2 target
    if gap ≤ radius then some (e, gap) else none

/-- The entry of a hit, with its distance. -/
def Hit.entry (hit : Hit) : Entry × Float := (hit.held.entry, hit.distance)

/-- Whether the Hamming distance lies within a radius is decided by the number of differing
positions. -/
theorem hamming_le_iff {x y : UInt64} {radius : Float} :
    hamming x y ≤ radius ↔
      radius.isNaN = false ∧ ((popCount 64 (x ^^^ y) : ℝ) : EReal) ≤ value radius := by
  have hnumber := tame_hamming.isNumber x y
  rw [← value_hamming]
  constructor
  · intro hle
    have hradius := (isNaN_of_le hle).2
    exact ⟨hradius, (le_iff_value hnumber hradius).1 hle⟩
  · rintro ⟨hradius, hle⟩
    exact (le_iff_value hnumber hradius).2 hle

namespace Tree

variable {t t' : Tree} {target : UInt64} {radius : Float}

/-! ### The points that can be found -/

/-- The live points that nodes hold. -/
def placed (t : Tree) : List Held := (t.held.map t.points.heldAt).filter Held.live

namespace Sound

/-- **The points placed are those of the ids that do not wait.** -/
theorem mem_placed (h : t.Sound) {x : Held} :
    x ∈ t.placed ↔ t.ids[x.point.id]? = some x.slot ∧ x.slot ∉ t.arrivals ∧
      t.points.get? x.slot = some x.point := by
  rw [placed, List.mem_filter, List.mem_map]
  constructor
  · rintro ⟨⟨slot, hslot, rfl⟩, hlive⟩
    obtain ⟨p, hp⟩ := h.points.exists_get? (List.mem_append_left _ hslot)
    rw [t.points.heldAt_of_get? hp] at hlive ⊢
    exact ⟨h.ids_of_live hp hlive, h.not_mem_arrivals hslot, hp⟩
  · rintro ⟨hid, hplaced, hp⟩
    obtain ⟨q, hq, -, hlive⟩ := h.exists_point hid
    obtain rfl : x.point = q := Option.some.inj (hp.symm.trans hq)
    refine ⟨⟨x.slot, ?_, t.points.heldAt_of_get? hp⟩, hlive⟩
    exact (List.mem_append.1 (h.points.mem_of_get? hp)).resolve_right hplaced

/-- A point that is placed is found under its id. -/
theorem lookup?_of_placed {x : Held} (h : t.Sound) (hx : x ∈ t.placed) :
    t.lookup? x.point.id = .ok (some x.point) := by
  obtain ⟨hid, -, hp⟩ := h.mem_placed.1 hx
  rw [lookup?_eq h, hid, Option.map_some, t.points.heldAt_of_get? hp]

/-- An id has at most one point that is placed. -/
theorem nodup_placed (h : t.Sound) : (t.placed.map fun x => x.point.id).Nodup := by
  refine List.Nodup.map_on (fun x hx y hy heq => ?_) ?_
  · -- an id stands for one slot, and a slot holds one point
    obtain ⟨hidx, -, hpx⟩ := h.mem_placed.1 hx
    obtain ⟨hidy, -, hpy⟩ := h.mem_placed.1 hy
    rw [show x.point.id = y.point.id from heq, hidy] at hidx
    have hslot : y.slot = x.slot := Option.some.inj hidx
    rw [hslot, hpx] at hpy
    obtain ⟨slot, p⟩ := x
    obtain ⟨slot', q⟩ := y
    obtain rfl : slot' = slot := hslot
    obtain rfl := Option.some.inj hpy
    rfl
  · have hheld := List.Nodup.of_append_left h.points.nodup
    exact (hheld.map fun a b heq => congrArg Held.slot heq).filter _

/-- The shares of all nodes are the hits among the placed points. -/
theorem perm_shares (t : Tree) :
    (t.shares target radius).Perm (t.placed.filterMap (Held.hit? t.metric target radius)) := by
  unfold shares nodes placed held
  cases t.root with
  | none => exact .refl _
  | some root =>
      refine (root.rows_perm_all.flatMap_right _).trans (.of_eq ?_)
      change _ = ((List.map _ (root.all.flatMap Subtree.own)).filter _).filterMap _
      rw [List.map_flatMap, List.filter_flatMap, List.filterMap_flatMap]
      refine List.flatMap_congr fun s _ => ?_
      rw [Subtree.share, Subtree.looked, Node.share, Node.points_mapPoints]
      rfl

/-- **A search finds the placed points within the radius**, nearest first. -/
theorem exists_hits (h : t.Sound) (hd : t.metric.Lawful) (target : UInt64) (radius : Float) :
    ∃ found, t.search target radius = .ok found ∧
      found.hits.Pairwise (fun x y => x.distance ≤ y.distance) ∧
      found.hits.Perm (t.placed.filterMap (Held.hit? t.metric target radius)) := by
  obtain ⟨found, hok, hhits⟩ := h.search_eq_shares hd target radius
  have hnumbers := t.numbers_shares target radius
  have hperm := nearestFirst_perm (t.shares target radius)
  refine ⟨found, hok, ?_, hhits ▸ hperm.trans (perm_shares t)⟩
  rw [hhits]
  refine (nearest_nearestFirst hnumbers).1.imp_of_mem fun hx hy hle => ?_
  exact (le_iff_value (hnumbers _ (hperm.mem_iff.1 hx)) (hnumbers _ (hperm.mem_iff.1 hy))).2 hle

/-- Once nothing waits, the placed points are the entries of the snapshot. -/
theorem perm_placed (h : t.Sound) (hempty : t.arrivals = []) :
    (t.placed.map Held.entry).Perm (t.ids.toList.map fun x => (x.1, t.points.valueAt x.2)) := by
  have hplaced : (t.placed.map Held.entry).Nodup := by
    refine List.Nodup.of_map Prod.fst ?_
    rw [List.map_map]
    exact h.nodup_placed
  have hlisted : (t.ids.toList.map fun x => (x.1, t.points.valueAt x.2)).Nodup := by
    refine List.Nodup.of_map Prod.fst ?_
    rw [List.map_map]
    exact nodup_keys_id
  -- neither list has an entry twice, so it is enough that they have the same entries
  refine (List.perm_ext_iff_of_nodup hplaced hlisted).2 fun e => ?_
  rw [List.mem_map, List.mem_map]
  constructor
  · rintro ⟨x, hx, rfl⟩
    obtain ⟨hid, -, hp⟩ := h.mem_placed.1 hx
    refine ⟨(x.point.id, x.slot), Std.TreeMap.mem_toList_iff_getElem?_eq_some.2 hid, ?_⟩
    rw [Slots.valueAt, t.points.heldAt_of_get? hp]
    rfl
  · rintro ⟨⟨id, slot⟩, hmem, rfl⟩
    have hid := Std.TreeMap.mem_toList_iff_getElem?_eq_some.1 hmem
    obtain ⟨p, hp, rfl, -⟩ := h.exists_point hid
    refine ⟨⟨slot, p⟩, h.mem_placed.2 ⟨hid, by rw [hempty]; exact List.not_mem_nil, hp⟩, ?_⟩
    rw [Slots.valueAt, t.points.heldAt_of_get? hp]
    rfl

/-- Of every point at most one hit is found. -/
theorem sublist_hits (d : Metric) (target : UInt64) (radius : Float) (xs : List Held) :
    ((xs.filterMap (Held.hit? d target radius)).map Hit.held).Sublist xs := by
  induction xs with
  | nil => exact .slnil
  | cons x rest ih =>
      rw [List.filterMap_cons]
      cases hx : x.hit? d target radius with
      | none => exact ih.cons x
      | some hit =>
          obtain ⟨-, rfl⟩ := Held.hit?_eq_some.1 hx
          exact ih.cons_cons x

/-- The hits among some points are found by scanning their entries. -/
theorem map_entry_hits (d : Metric) (target : UInt64) (radius : Float) (xs : List Held) :
    (xs.filterMap (Held.hit? d target radius)).map Hit.entry =
      Snapshot.scan d target radius ⟨xs.map Held.entry⟩ := by
  rw [Snapshot.scan, List.map_filterMap, List.filterMap_map]
  refine List.filterMap_congr fun x _ => ?_
  unfold Held.hit?
  dsimp only [Function.comp]
  by_cases hnear : d x.value target ≤ radius
  · rw [if_pos hnear, if_pos (show d x.entry.2 target ≤ radius from hnear)]
    rfl
  · rw [if_neg hnear, if_neg (show ¬ d x.entry.2 target ≤ radius from hnear)]
    rfl

/-- **Once nothing waits, a search finds what a scan of the snapshot finds.** -/
theorem exists_scan (h : t.Sound) (hd : t.metric.Lawful) (hempty : t.arrivals = [])
    (target : UInt64) (radius : Float) : ∃ found, t.search target radius = .ok found ∧
      found.hits.Pairwise (fun x y => x.distance ≤ y.distance) ∧
      (found.hits.map Hit.entry).Perm (Snapshot.scan t.metric target radius
        ⟨t.ids.toList.map fun x => (x.1, t.points.valueAt x.2)⟩) := by
  obtain ⟨found, hfound, hsorted, hperm⟩ := h.exists_hits hd target radius
  refine ⟨found, hfound, hsorted, (hperm.map Hit.entry).trans ?_⟩
  rw [map_entry_hits]
  exact (h.perm_placed hempty).filterMap _

/-! ### No faults -/

/-- **With a sortable metric no operation reports a fault.** -/
theorem fault?_of_sortable {op : Op} {answer : Answer} (h : t.Sound) (hd : t.metric.Sortable)
    (hp : t.Performs op t' answer) : answer.fault? = none := by
  cases hp with
  | addFlushes hr _ hf =>
      obtain rfl := hf.eq_ok_of_sortable (hr.sound h) (hr.metric ▸ hd)
      rfl
  | addBatch hr hf =>
      obtain rfl := hf.eq_ok_of_sortable (hr.sound h) (hr.metric ▸ hd)
      rfl
  | sync hf =>
      obtain rfl := hf.eq_ok_of_sortable h hd
      rfl
  | addWaits | delete | clear | lookUp | snapshot | search => rfl

/-- With a sortable metric a run reports no fault. -/
theorem exists_performAll_of_sortable (h : t.Sound) (hd : t.metric.Sortable) (ops : List Op) :
    ∃ t' answers, t.performAll ops = .ok (t', answers) ∧ t'.Sound ∧ t'.metric = t.metric ∧
      ∀ answer ∈ answers, answer.fault? = none := by
  induction ops generalizing t with
  | nil => exact ⟨t, [], rfl, h, rfl, by simp⟩
  | cons op rest ih =>
      obtain ⟨t₁, answer, hop, hp⟩ := h.exists_performs op
      obtain ⟨t', answers, hrest, hsound', hmetric', hnone⟩ := ih (hp.sound h) (hp.metric ▸ hd)
      exact ⟨t', answer :: answers,
        performAll_cons_eq_ok.2 ⟨t₁, answer, answers, hop, hrest, rfl⟩, hsound',
        hmetric'.trans hp.metric, List.forall_mem_cons.2 ⟨h.fault?_of_sortable hd hp, hnone⟩⟩

theorem fault?_of_performAll {ops : List Op} {answers : List Answer} (h : t.Sound)
    (hd : t.metric.Sortable) (hok : t.performAll ops = .ok (t', answers)) :
    ∀ answer ∈ answers, answer.fault? = none := by
  obtain ⟨t'', answers', hok', -, -, hnone⟩ := h.exists_performAll_of_sortable hd ops
  obtain ⟨-, rfl⟩ := Prod.mk.inj (Except.ok.inj (hok.symm.trans hok'))
  exact hnone

theorem exists_performAll_of_tame (h : t.Sound) (hd : t.metric.Tame) (ops : List Op) :
    ∃ t' answers, t.performAll ops = .ok (t', answers) ∧ t'.Sound ∧ t'.metric = t.metric ∧
      ∀ answer ∈ answers, answer.fault? = none :=
  h.exists_performAll_of_sortable hd.sortable ops

end Sound

/-! ### The Hamming distance -/

section hamming

variable (h : t.Sound) (hd : t.metric = hamming)
include h hd

/-- With the Hamming distance a search finds each placed point within the radius once. -/
theorem hits_of_hamming (target : UInt64) (radius : Float) :
    ∃ found, t.search target radius = .ok found ∧
      found.hits.Pairwise (fun x y => x.distance ≤ y.distance) ∧
      (found.hits.map fun hit => hit.held.point.id).Nodup ∧
      ∀ hit, hit ∈ found.hits ↔
        t.ids[hit.held.point.id]? = some hit.held.slot ∧
        t.lookup? hit.held.point.id = .ok (some hit.held.point) ∧
        hit.held.slot ∉ t.arrivals ∧
        hit.distance = hamming hit.held.value target ∧
        radius.isNaN = false ∧
        ((popCount 64 (hit.held.value ^^^ target) : ℝ) : EReal) ≤ value radius := by
  obtain ⟨found, hok, hsorted, hperm⟩ := h.exists_hits (hd ▸ lawful_hamming) target radius
  refine ⟨found, hok, hsorted, ?_, fun hit => ?_⟩
  · refine (hperm.map _).nodup_iff.2 ?_
    have hsub := (Sound.sublist_hits t.metric target radius t.placed).map fun x => x.point.id
    rw [List.map_map] at hsub
    exact h.nodup_placed.sublist hsub
  · rw [hperm.mem_iff, List.mem_filterMap, ← hamming_le_iff, hd]
    constructor
    · rintro ⟨x, hx, hhit⟩
      obtain ⟨hnear, rfl⟩ := Held.hit?_eq_some.1 hhit
      obtain ⟨hid, hplaced, -⟩ := h.mem_placed.1 hx
      exact ⟨hid, h.lookup?_of_placed hx, hplaced, rfl, hnear⟩
    · rintro ⟨hid, hlook, hplaced, hdistance, hnear⟩
      rw [lookup?_eq h, hid] at hlook
      obtain ⟨p, hp, -⟩ := h.exists_point hid
      rw [Option.map_some, t.points.heldAt_of_get? hp] at hlook
      obtain rfl := Option.some.inj (Except.ok.inj hlook)
      refine ⟨hit.held, h.mem_placed.2 ⟨hid, hplaced, hp⟩, Held.hit?_eq_some.2 ⟨hnear, ?_⟩⟩
      rw [← hdistance]

/-- After a flush a search finds what a scan of the snapshot finds. -/
theorem scan_of_hamming : ∃ t', t.flush = .ok (t', .ok ()) ∧
      ∃ snapshot, t'.snapshot = .ok snapshot ∧ ∀ target radius,
        ∃ found, t'.search target radius = .ok found ∧
          found.hits.Pairwise (fun x y => x.distance ≤ y.distance) ∧
          (found.hits.map Hit.entry).Perm (snapshot.scan hamming target radius) := by
  obtain ⟨t', outcome, hok, hf⟩ := exists_flush h
  obtain rfl := hf.eq_ok_of_sortable h (hd ▸ sortable_hamming)
  have hmetric : t'.metric = hamming := hf.metric.trans hd
  refine ⟨t', hok, _, snapshot_eq hf.sound, fun target radius => ?_⟩
  exact hmetric ▸ hf.sound.exists_scan (hmetric ▸ lawful_hamming) hf.arrivals target radius

end hamming

/-- **The Hamming distance is searched without fail.**  Whatever run starts from a tree without
entries: every operation answers, and none reports a fault. A search then finds, nearest first, one
hit for every id whose point does not wait and differs from the target in at most as many positions
as the radius says, with the point of the id and its distance, and nothing else. And when a flush
follows, a search finds what a scan of the snapshot finds. -/
theorem hamming_search {shape : Shape} {t₀ : Tree} (h : ofShape shape hamming = .ok t₀)
    (ops : List Op) :
    ∃ t answers, t₀.performAll ops = .ok (t, answers) ∧
      (∀ answer ∈ answers, answer.fault? = none) ∧
      (∀ target radius, ∃ found, t.search target radius = .ok found ∧
        found.hits.Pairwise (fun x y => x.distance ≤ y.distance) ∧
        (found.hits.map fun hit => hit.held.point.id).Nodup ∧
        ∀ hit, hit ∈ found.hits ↔
          t.ids[hit.held.point.id]? = some hit.held.slot ∧
          t.lookup? hit.held.point.id = .ok (some hit.held.point) ∧
          hit.held.slot ∉ t.arrivals ∧
          hit.distance = hamming hit.held.value target ∧
          radius.isNaN = false ∧
          ((popCount 64 (hit.held.value ^^^ target) : ℝ) : EReal) ≤ value radius) ∧
      ∃ t', t.flush = .ok (t', .ok ()) ∧
        ∃ snapshot, t'.snapshot = .ok snapshot ∧ ∀ target radius,
          ∃ found, t'.search target radius = .ok found ∧
            found.hits.Pairwise (fun x y => x.distance ≤ y.distance) ∧
            (found.hits.map Hit.entry).Perm (snapshot.scan hamming target radius) := by
  obtain ⟨hshape, rfl⟩ := ofShape_eq_ok.1 h
  obtain ⟨t, answers, hok, hsound, hmetric, hnone⟩ :=
    (sound_fresh hshape hamming).exists_performAll_of_tame tame_hamming ops
  exact ⟨t, answers, hok, hnone, hits_of_hamming hsound hmetric, scan_of_hamming hsound hmetric⟩

/-- A run after which one of two entries waits. -/
theorem hamming_search_waiting :
    ofShape {} hamming = .ok (fresh {} hamming) ∧
      ∃ t answers,
        (fresh {} hamming).performAll [.addBatch [(1, 0), (2, 7)], .add 1 1] =
          .ok (t, answers) ∧
        (∀ answer ∈ answers, answer.fault? = none) ∧
        (∃ found, t.search 0 4 = .ok found ∧
          (found.hits.map fun hit => hit.held.point.id).Nodup) ∧
        ∃ t', t.flush = .ok (t', .ok ()) := by
  have h : ofShape {} hamming = .ok (fresh {} hamming) := rfl
  obtain ⟨t, answers, hok, hnone, hsearch, t', hflush, -⟩ :=
    hamming_search h [.addBatch [(1, 0), (2, 7)], .add 1 1]
  obtain ⟨found, hfound, -, hnodup, -⟩ := hsearch 0 4
  exact ⟨h, t, answers, hok, hnone, ⟨found, hfound, hnodup⟩, t', hflush⟩

end Tree

end Vantage
