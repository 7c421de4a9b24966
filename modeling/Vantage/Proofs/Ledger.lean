/-
**The entries of a tree, and a ledger of them.**

What a tree answers about its entries does not depend on its nodes. A ledger keeps the entries of
the last flush in a map and the later ones in a buffer, in order of registration; a flush writes the
buffer into the map or drops it. A run of a tree answers as a ledger does that goes through the same
operations.

Main definitions:

* `Vantage.Ledger`, `Ledger.lookUp`, `Ledger.overlay` — committed entries beneath a buffer;
* `Ledger.Step`, `Ledger.Run` — what operations do to a ledger, and what they answer;
* `Tree.Records` — a tree has the entries of a ledger.

Main results:

* `Ledger.getElem?_overlay` — the overlay has the entries that looking up finds;
* `Tree.Records.lookup?`, `Tree.Records.size`, `Tree.Records.snapshot` — **a tree is read as its
  ledger is**;
* `Tree.Records.step` — **an operation of a tree is a step of its ledger**;
* `Ledger.exists_matching_run` — every run of a tree is a run of a ledger.
-/

import Vantage.Proofs.Runs

set_option relaxedAutoImplicit false
set_option autoImplicit false

namespace Vantage

/-- Entries by id: those of the last flush, and those registered since. -/
structure Ledger where
  committed : Std.TreeMap Int64 UInt64 := ∅
  /-- The entries registered since the last flush, in order of registration. -/
  buffer : List Entry := []
  /-- The number of registrations since the last flush. -/
  pending : Nat := 0
  /-- An id has one entry in the buffer. -/
  nodup : (buffer.map Prod.fst).Nodup := by exact List.nodup_nil

namespace Ledger

variable (L : Ledger)

/-! ### Reading a ledger -/

/-- The fingerprint of an id: that of the buffer, or else the committed one. -/
def lookUp (id : Int64) : Option UInt64 := (L.buffer.lookup id).or L.committed[id]?

/-- The committed entries, overwritten by those of the buffer. -/
def overlay : Std.TreeMap Int64 UInt64 :=
  L.buffer.foldl (fun m e => m.insert e.1 e.2) L.committed

/-! ### Writing to a ledger -/

/-- The entries of a list whose id is another one. -/
def without (id : Int64) (entries : List Entry) : List Entry := entries.filter (·.1 ≠ id)

theorem nodup_without {id : Int64} {entries : List Entry} (h : (entries.map Prod.fst).Nodup) :
    ((without id entries).map Prod.fst).Nodup :=
  h.sublist (List.filter_sublist.map _)

theorem not_mem_without (id : Int64) (entries : List Entry) :
    id ∉ (without id entries).map Prod.fst := by
  intro h
  obtain ⟨e, he, heq⟩ := List.mem_map.1 h
  exact absurd heq (by simpa using (List.mem_filter.1 he).2)

/-- Puts an entry at the end of the buffer, in place of an older one for its id. -/
def put (e : Entry) : Ledger where
  committed := L.committed
  buffer := without e.1 L.buffer ++ [e]
  pending := L.pending + 1
  nodup := by
    rw [List.map_append, List.map_singleton, List.nodup_append_comm]
    exact List.nodup_cons.2 ⟨not_mem_without e.1 L.buffer, nodup_without L.nodup⟩

/-- Puts entries at the end of the buffer, in order. -/
def putAll (entries : List Entry) : Ledger := entries.foldl put L

/-- Removes an id from the buffer and from the committed entries. -/
def remove (id : Int64) : Ledger where
  committed := L.committed.erase id
  buffer := without id L.buffer
  pending := L.pending
  nodup := nodup_without L.nodup

/-- The ledger once the buffer has been written. -/
def flushed : Ledger := { committed := L.overlay }

/-- The ledger once the buffer has been dropped. -/
def dropped : Ledger := { committed := L.committed }

/-- The ways in which a flush can end: it takes the buffer, or it drops the buffer and names what
was in it. An empty buffer is never dropped. -/
inductive Flush (L : Ledger) : Except Fault Unit → Ledger → Prop where
  | taken : Flush L (.ok ()) L.flushed
  | dropped (fault : Fault) (h : L.buffer ≠ []) :
      Flush L (.error (.batchRolledBack fault L.buffer)) L.dropped

/-- What an operation does to a ledger, and what it answers. -/
inductive Step (threshold : Nat) : Ledger → Op → Answer → Ledger → Prop where
  | addWaits {L : Ledger} {id : Int64} {value : UInt64}
      (h : (L.put (id, value)).pending < threshold) :
      Step threshold L (.add id value) (.done (.ok ())) (L.put (id, value))
  | addFlushes {L L' : Ledger} {id : Int64} {value : UInt64} {outcome : Except Fault Unit}
      (h : threshold ≤ (L.put (id, value)).pending) (hf : (L.put (id, value)).Flush outcome L') :
      Step threshold L (.add id value) (.done outcome) L'
  | addBatch {L L' : Ledger} {entries : List Entry} {outcome : Except Fault Unit}
      (hf : (L.putAll entries).Flush outcome L') :
      Step threshold L (.addBatch entries) (.done outcome) L'
  | sync {L L' : Ledger} {outcome : Except Fault Unit} (hf : L.Flush outcome L') :
      Step threshold L .sync (.done outcome) L'
  | delete {L : Ledger} {id : Int64} :
      Step threshold L (.delete id)
        (.point ((L.lookUp id).map fun value => { id, value, live := false })) (L.remove id)
  | clear {L : Ledger} : Step threshold L .clear (.done (.ok ())) {}
  | lookUp {L : Ledger} {id : Int64} :
      Step threshold L (.lookUp id) (.point ((L.lookUp id).map fun value => { id, value })) L
  | snapshot {L : Ledger} : Step threshold L .snapshot (.entries ⟨L.overlay.toList⟩) L
  | search {L : Ledger} {target : UInt64} {radius : Float} {found : Found} :
      Step threshold L (.search target radius) (.found found) L

/-- Operations in order, with their answers. -/
inductive Run (threshold : Nat) : Ledger → List Op → List Answer → Ledger → Prop where
  | nil {L : Ledger} : Run threshold L [] [] L
  | cons {L L₁ L' : Ledger} {op : Op} {ops : List Op} {answer : Answer} {answers : List Answer}
      (h : Step threshold L op answer L₁) (hrest : Run threshold L₁ ops answers L') :
      Run threshold L (op :: ops) (answer :: answers) L'

/-! ### Looking up after writing -/

/-- Entries with ids of their own, written into a map one after another. -/
theorem getElem?_foldl_insert {entries : List Entry} (h : (entries.map Prod.fst).Nodup)
    (m : Std.TreeMap Int64 UInt64) (id : Int64) :
    (entries.foldl (fun m e => m.insert e.1 e.2) m)[id]? = (entries.lookup id).or m[id]? := by
  induction entries generalizing m with
  | nil => rfl
  | cons e rest ih =>
      obtain ⟨hnew, hrest⟩ := List.nodup_cons.1 h
      rw [List.foldl_cons, ih hrest, getElem?_insert_id, List.lookup_cons]
      rcases eq_or_ne id e.1 with rfl | hne
      · -- the rest does not write the id again
        have hnone : rest.lookup e.1 = none :=
          List.lookup_eq_none_iff.2 fun x hx =>
            bne_iff_ne.2 fun heq => hnew (List.mem_map.2 ⟨x, hx, heq.symm⟩)
        rw [hnone, if_pos rfl, beq_self_eq_true]
        rfl
      · rw [if_neg hne.symm, beq_eq_false_iff_ne.2 hne]

/-- Of entries with ids of their own, looking up an id finds the one that is there. -/
theorem lookup_of_mem {entries : List Entry} (h : (entries.map Prod.fst).Nodup) {id : Int64}
    {value : UInt64} (hmem : (id, value) ∈ entries) : entries.lookup id = some value := by
  induction entries with
  | nil => cases hmem
  | cons e rest ih =>
      obtain ⟨hnew, hrest⟩ := List.nodup_cons.1 h
      rw [List.lookup_cons]
      rcases List.mem_cons.1 hmem with rfl | hmem
      · rw [beq_self_eq_true]
      · have hne : id ≠ e.1 := fun heq => hnew (List.mem_map.2 ⟨(id, value), hmem, heq⟩)
        rw [beq_eq_false_iff_ne.2 hne]
        exact ih hrest hmem

/-- **The overlay has the entries that looking up finds.** -/
theorem getElem?_overlay (id : Int64) : L.overlay[id]? = L.lookUp id :=
  getElem?_foldl_insert L.nodup L.committed id

end Ledger

namespace Tree

variable {t t' : Tree} {L L' : Ledger}

/-- **A tree has the entries of a ledger.**  The committed entries are those that it had at the last
flush, and the buffer holds those of the points that wait. -/
structure Records (t : Tree) (L : Ledger) : Prop where
  committed : ∀ id : Int64, L.committed[id]? = (t.placedSlot id).map t.points.valueAt
  buffer : L.buffer = t.batch.map Held.entry
  pending : L.pending = t.pending

theorem records_fresh (shape : Shape) (metric : Metric) : (fresh shape metric).Records {} where
  committed id := by simp [fresh, placedSlot]
  buffer := rfl
  pending := rfl

/-! ### Reading -/

namespace Records

/-- The entry of a point that waits and is live is in the buffer. -/
theorem lookup_buffer (hr : t.Records L) {id : Int64} {slot : Nat} {p : Point}
    (hslot : slot ∈ t.arrivals) (hp : t.points.get? slot = some p) (hid : p.id = id)
    (hlive : p.live = true) : L.buffer.lookup id = some p.value := by
  have hmem : (id, p.value) ∈ L.buffer := by
    rw [hr.buffer, ← hid]
    exact List.mem_map.2 ⟨_, mem_batch_of_live hslot hp hlive, rfl⟩
  exact Ledger.lookup_of_mem L.nodup hmem

/-- An id whose point does not wait is not in the buffer. -/
theorem lookup_buffer_eq_none (hr : t.Records L) (h : t.Sound) {id : Int64}
    (hid : ∀ slot ∈ t.arrivals, t.ids[id]? ≠ some slot) : L.buffer.lookup id = none := by
  refine List.lookup_eq_none_iff.2 fun e he => bne_iff_ne.2 fun heq => ?_
  rw [hr.buffer] at he
  obtain ⟨x, hx, rfl⟩ := List.mem_map.1 he
  obtain ⟨harrived, -, hlive⟩ := mem_batch hx
  refine hid x.slot harrived ?_
  rw [heq]
  exact h.ids_of_live (get?_of_mem_batch h hx) hlive

/-- **The fingerprint of an id is the one that the ledger has for it.** -/
theorem lookUp_eq (hr : t.Records L) (h : t.Sound) (id : Int64) :
    L.lookUp id = t.ids[id]?.map t.points.valueAt := by
  unfold Ledger.lookUp
  rw [hr.committed]
  by_cases hwaits : ∃ slot ∈ t.arrivals, t.ids[id]? = some slot
  · -- the point waits, and the buffer has its entry
    obtain ⟨slot, harrived, hid⟩ := hwaits
    obtain ⟨p, hp, hpid, hlive⟩ := h.exists_point hid
    rw [hr.lookup_buffer harrived hp hpid hlive, hid, Option.map_some, Slots.valueAt,
      t.points.heldAt_of_get? hp]
    rfl
  · -- the id has the point that it had at the last flush, or none
    have hnone : ∀ slot ∈ t.arrivals, t.ids[id]? ≠ some slot :=
      fun slot harrived hid => hwaits ⟨slot, harrived, hid⟩
    rw [hr.lookup_buffer_eq_none h hnone, Option.none_or, h.placedSlot_of_not_waiting hnone]

/-- The point of an id has the fingerprint that the ledger has for the id, and is live. -/
theorem point_eq (hr : t.Records L) (h : t.Sound) (id : Int64) :
    (t.ids[id]?.map fun slot => (t.points.heldAt slot).point) =
      (L.lookUp id).map fun value => { id, value } := by
  rw [hr.lookUp_eq h, Option.map_map]
  cases hid : t.ids[id]? with
  | none => rfl
  | some slot =>
      obtain ⟨p, hp, rfl, hlive⟩ := h.exists_point hid
      simp only [Option.map_some, Function.comp, Slots.valueAt, t.points.heldAt_of_get? hp,
        Held.value, ← hlive]

/-- Looking up an id answers with its entry in the ledger. -/
theorem lookup? (hr : t.Records L) (h : t.Sound) (id : Int64) :
    t.lookup? id = .ok ((L.lookUp id).map fun value => { id, value }) := by
  rw [lookup?_eq h, hr.point_eq h]

/-- Deleting an id answers with its entry in the ledger, now dead. -/
theorem dead_point (hr : t.Records L) (h : t.Sound) (id : Int64) :
    (t.ids[id]?.map fun slot => { (t.points.heldAt slot).point with live := false }) =
      (L.lookUp id).map fun value => ({ id, value, live := false } : Point) := by
  have hpoint := congrArg (Option.map fun p : Point => { p with live := false }) (hr.point_eq h id)
  rwa [Option.map_map, Option.map_map] at hpoint

/-- The overlay of the ledger has the ids of the tree, with their fingerprints. -/
theorem overlay_equiv (hr : t.Records L) (h : t.Sound) :
    (t.ids.map fun _ slot => t.points.valueAt slot).Equiv L.overlay := by
  refine equiv_of_getElem?_id fun id => ?_
  rw [Std.TreeMap.getElem?_map, L.getElem?_overlay, hr.lookUp_eq h]

/-- The tree has as many entries as the ledger. -/
theorem size (hr : t.Records L) (h : t.Sound) : t.size = L.overlay.size := by
  rw [← (hr.overlay_equiv h).size_eq, Std.TreeMap.size_map]
  rfl

/-- The entries of the tree are listed as those of the ledger are. -/
theorem toList_eq (hr : t.Records L) (h : t.Sound) :
    (t.ids.toList.map fun x => (x.1, t.points.valueAt x.2)) = L.overlay.toList := by
  rw [← (hr.overlay_equiv h).toList_eq, Std.TreeMap.toList_map]

/-- The snapshot lists the entries of the ledger. -/
theorem snapshot (hr : t.Records L) (h : t.Sound) : t.snapshot = .ok ⟨L.overlay.toList⟩ := by
  rw [snapshot_eq h, hr.toList_eq h]

end Records

/-! ### Writing -/

/-- Retiring an id takes its entry from those of the live points, and leaves the others in
order. -/
theorem entries_of_retire {points points' : Slots Point} {id : Int64} (slots : List Nat)
    (hslots : ∀ slot ∈ slots, points.Occupied slot)
    (hget : ∀ slot ∈ slots, points'.get? slot = (points.get? slot).map (Point.retire id)) :
    ((slots.map points'.heldAt).filter Held.live).map Held.entry =
      Ledger.without id (((slots.map points.heldAt).filter Held.live).map Held.entry) := by
  induction slots with
  | nil => rfl
  | cons slot rest ih =>
      obtain ⟨hslot, hslots⟩ := List.forall_mem_cons.1 hslots
      obtain ⟨hfirst, hget⟩ := List.forall_mem_cons.1 hget
      obtain ⟨p, hp⟩ := Slots.occupied_iff.1 hslot
      rw [hp, Option.map_some] at hfirst
      rw [List.map_cons, List.map_cons, points.heldAt_of_get? hp, points'.heldAt_of_get? hfirst,
        List.filter_cons, List.filter_cons]
      specialize ih hslots hget
      by_cases hid : p.id = id
      · -- a point of the id is in the list at most before it is retired
        have hdead : ¬ Held.live ⟨slot, p.retire id⟩ = true := fun hlive =>
          ((Point.live_retire id p).1 hlive).1 hid
        rw [if_neg hdead, ih]
        split
        · rw [List.map_cons, Ledger.without, Ledger.without, List.filter_cons_of_neg]
          exact fun hne => of_decide_eq_true hne hid
        · rfl
      · rw [Point.retire_of_ne hid]
        split
        · rw [List.map_cons, List.map_cons, ih, Ledger.without, Ledger.without,
            List.filter_cons_of_pos]
          exact decide_eq_true hid
        · exact ih

/-- The fingerprints of the points of the last flush are the committed ones. -/
theorem Records.committed_of_retire (hr : t.Records L) (h : t.Sound) {i : Int64}
    (hget : ∀ slot ∈ t.held, t'.points.get? slot = (t.points.get? slot).map (Point.retire i))
    (id : Int64) : L.committed[id]? = (t.placedSlot id).map t'.points.valueAt := by
  rw [hr.committed]
  cases hslot : t.placedSlot id with
  | none => rfl
  | some slot =>
      rw [Option.map_some, Option.map_some, valueAt_of_retire (hget slot (h.exists_placed hslot).1)]

/-- **Registering an entry puts it into the ledger.** -/
theorem Records.register (hr : t.Records L) (h : t.Sound) {id : Int64} {value : UInt64}
    {slot : Nat} (hreg : t.Registers id value slot t') : t'.Records (L.put (id, value)) where
  committed i := by
    rw [hreg.placedSlot]
    exact hr.committed_of_retire h
      (fun other hother => hreg.get?_of_mem (List.mem_append_left _ hother)) i
  buffer := by
    have hnew : t'.points.heldAt slot = ⟨slot, { id, value }⟩ :=
      t'.points.heldAt_of_get? hreg.self
    have hold := entries_of_retire t.arrivals
      (fun other hother => (h.points.occupied other).2 (List.mem_append_right _ hother))
      (fun other hother => hreg.get?_of_mem (List.mem_append_right _ hother))
    rw [batch, hreg.arrivals, List.map_append, List.filter_append, List.map_append, hold,
      List.map_singleton, hnew]
    change Ledger.without id L.buffer ++ [(id, value)] = _
    rw [hr.buffer]
    rfl
  pending := by
    change L.pending + 1 = t'.arrivals.length
    rw [hreg.arrivals, List.length_append, hr.pending]
    rfl

/-- **Deleting an entry removes it from the ledger.** -/
theorem Records.delete (hr : t.Records L) (h : t.Sound) {id : Int64} (hdel : t.Deletes id t') :
    t'.Records (L.remove id) where
  committed i := by
    change (L.committed.erase id)[i]? = _
    rw [hdel.placedSlot, getElem?_erase_id]
    split
    · rfl
    · exact hr.committed_of_retire h (fun other _ => hdel.get? other) i
  buffer := by
    rw [batch, hdel.arrivals, entries_of_retire t.arrivals
      (fun other hother => (h.points.occupied other).2 (List.mem_append_right _ hother))
      (fun other _ => hdel.get? other)]
    change Ledger.without id L.buffer = _
    rw [hr.buffer]
    rfl
  pending := by
    change L.pending = t'.arrivals.length
    rw [hdel.arrivals, hr.pending]
    rfl

/-- **A flush that succeeds writes the buffer.** -/
theorem Records.flushed (hr : t.Records L) (h : t.Sound) (hc : t.Commits t') :
    t'.Records L.flushed where
  committed id := by
    change L.overlay[id]? = _
    rw [L.getElem?_overlay, hr.lookUp_eq h, placedSlot, hc.prior, hc.ids]
    cases hid : t.ids[id]? with
    | none => rfl
    | some slot =>
        obtain ⟨p, hp, -, hlive⟩ := h.exists_point hid
        have hsame : t'.points.get? slot = t.points.get? slot :=
          ((hc.live slot p hlive).2 hp).trans hp.symm
        exact congrArg some (valueAt_congr hsame).symm
  buffer := by
    rw [batch, hc.arrivals]
    rfl
  pending := by
    rw [Registry.pending, hc.arrivals]
    rfl

/-- **A flush that fails drops the buffer.** -/
theorem Records.dropped (hr : t.Records L) (h : t.Sound) (hb : t.RollsBack t') :
    t'.Records L.dropped where
  committed id := by
    change L.committed[id]? = _
    -- the ids stand for the points that they had at the last flush
    have hplaced : t'.placedSlot id = t.placedSlot id := by
      rw [← hb.ids, placedSlot, hb.prior]
      rfl
    rw [hr.committed, hplaced]
    cases hslot : t.placedSlot id with
    | none => rfl
    | some slot => exact congrArg some (hb.valueAt (h.exists_placed hslot).1).symm
  buffer := by
    rw [batch, hb.arrivals]
    rfl
  pending := by
    rw [Registry.pending, hb.arrivals]
    rfl

/-- Registering entries puts them into the ledger. -/
theorem Records.registerAll {entries : List Entry} (hr : t.Records L) (h : t.Sound)
    (hall : t.RegistersAll entries t') : t'.Records (L.putAll entries) := by
  induction hall generalizing L with
  | nil t => exact hr
  | cons hfirst hrest ih => exact ih (hr.register h hfirst) (hfirst.sound h)

/-- A flush of the tree is a flush of the ledger. -/
theorem Records.flush {outcome : Except Fault Unit} (hr : t.Records L) (h : t.Sound)
    (hf : t.Flushes outcome t') : ∃ L', L.Flush outcome L' ∧ t'.Records L' := by
  cases hf with
  | commits _ _ hc => exact ⟨_, .taken, hr.flushed h hc⟩
  | rollsBack fault _ hne _ hb =>
      rw [← hr.buffer]
      refine ⟨_, .dropped fault ?_, hr.dropped h hb⟩
      rw [hr.buffer]
      exact fun hnil => hne (List.map_eq_nil_iff.1 hnil)

/-- **An operation of the tree is a step of its ledger.** -/
theorem Records.step {op : Op} {answer : Answer} (hr : t.Records L) (h : t.Sound)
    (hp : t.Performs op t' answer) :
    ∃ L', Ledger.Step t.shape.syncThreshold L op answer L' ∧ t'.Records L' := by
  cases hp with
  | addWaits hreg hroom =>
      have hr' := hr.register h hreg
      rw [hreg.shape, ← hr'.pending] at hroom
      exact ⟨_, .addWaits hroom, hr'⟩
  | addFlushes hreg hfull hf =>
      have hr₁ := hr.register h hreg
      rw [hreg.shape, ← hr₁.pending] at hfull
      obtain ⟨L', hflush, hr'⟩ := hr₁.flush (hreg.sound h) hf
      exact ⟨L', .addFlushes hfull hflush, hr'⟩
  | addBatch hall hf =>
      obtain ⟨L', hflush, hr'⟩ := (hr.registerAll h hall).flush (hall.sound h) hf
      exact ⟨L', .addBatch hflush, hr'⟩
  | sync hf =>
      obtain ⟨L', hflush, hr'⟩ := hr.flush h hf
      exact ⟨L', .sync hflush, hr'⟩
  | @delete id t' hdel _ =>
      refine ⟨L.remove id, ?_, hr.delete h hdel⟩
      rw [hr.dead_point h]
      exact .delete
  | clear => exact ⟨{}, .clear, records_fresh t.shape t.metric⟩
  | lookUp =>
      rw [hr.point_eq h]
      exact ⟨L, .lookUp, hr⟩
  | snapshot =>
      rw [hr.toList_eq h]
      exact ⟨L, .snapshot, hr⟩
  | search => exact ⟨L, .search, hr⟩

/-- A run of the tree is a run of its ledger. -/
theorem Records.run (hr : t.Records L) (h : t.Sound) (ops : List Op) :
    ∃ t' answers L', t.performAll ops = .ok (t', answers) ∧ t'.Sound ∧
      Ledger.Run t.shape.syncThreshold L ops answers L' ∧ t'.Records L' := by
  induction ops generalizing t L with
  | nil => exact ⟨t, [], L, rfl, h, .nil, hr⟩
  | cons op rest ih =>
      obtain ⟨t₁, answer, hop, hp⟩ := h.exists_performs op
      obtain ⟨L₁, hstep, hr₁⟩ := hr.step h hp
      obtain ⟨t', answers, L', hrest, hsound', hrun, hr'⟩ := ih hr₁ (hp.sound h)
      rw [hp.shape] at hrun
      exact ⟨t', answer :: answers, L',
        performAll_cons_eq_ok.2 ⟨t₁, answer, answers, hop, hrest, rfl⟩, hsound',
        .cons hstep hrun, hr'⟩

end Tree

namespace Ledger

/-- **Every run of a tree is a run of a ledger.**  From a tree without entries all operations
answer, a ledger answers alike, and in the end the tree is read as the ledger is: by id, by the
number of its entries, by its snapshot and by the number of registrations that wait. -/
theorem exists_matching_run {shape : Shape} {metric : Metric} {t : Tree}
    (h : Tree.ofShape shape metric = .ok t) (ops : List Op) :
    ∃ t' answers L, t.performAll ops = .ok (t', answers) ∧
      Run shape.syncThreshold {} ops answers L ∧
      (∀ id, t'.lookup? id = .ok ((L.lookUp id).map fun value => { id, value })) ∧
      t'.size = L.overlay.size ∧
      t'.snapshot = .ok ⟨L.overlay.toList⟩ ∧
      t'.pending = L.pending := by
  obtain ⟨hshape, rfl⟩ := Tree.ofShape_eq_ok.1 h
  obtain ⟨t', answers, L, hok, hsound, hrun, hr⟩ :=
    (Tree.records_fresh shape metric).run (Tree.sound_fresh hshape metric) ops
  exact ⟨t', answers, L, hok, hrun, hr.lookup? hsound, hr.size hsound, hr.snapshot hsound,
    hr.pending.symm⟩

/-- Ids are replaced, and a flush that fails gives one of them its entry back; the other has been
deleted in the meantime and gets none. -/
theorem exists_matching_run_replaced :
    ∃ (shape : Shape) (metric : Metric),
      Tree.ofShape shape metric = .ok (.fresh shape metric) ∧
      ∃ t' answers L,
        (Tree.fresh shape metric).performAll [.addBatch [(1, 1), (2, 2), (3, 3)], .add 1 7,
          .add 2 8, .delete 2, .addBatch [(4, 666)], .lookUp 1, .lookUp 2] = .ok (t', answers) ∧
        answers.map Answer.fault? = [none, none, none, none,
          some (.batchRolledBack (.incompleteCollation 0 0 1) [(1, 7), (4, 666)]), none, none] ∧
        Run shape.syncThreshold {} [.addBatch [(1, 1), (2, 2), (3, 3)], .add 1 7,
          .add 2 8, .delete 2, .addBatch [(4, 666)], .lookUp 1, .lookUp 2] answers L ∧
        (∀ id, t'.lookup? id = .ok ((L.lookUp id).map fun value => { id, value })) ∧
        t'.size = L.overlay.size ∧
        t'.snapshot = .ok ⟨L.overlay.toList⟩ ∧
        t'.pending = L.pending := by
  refine ⟨{ Shape.smallest with syncThreshold := 3 },
    fun a b => if a = 666 ∨ b = 666 then Float.nan else hamming a b, rfl, ?_⟩
  obtain ⟨t', answers, L, hok, hrun⟩ := exists_matching_run
    (show Tree.ofShape { Shape.smallest with syncThreshold := 3 }
      (fun a b => if a = 666 ∨ b = 666 then Float.nan else hamming a b) = .ok _ from rfl)
    [.addBatch [(1, 1), (2, 2), (3, 3)], .add 1 7, .add 2 8, .delete 2, .addBatch [(4, 666)],
      .lookUp 1, .lookUp 2]
  refine ⟨t', answers, L, hok, ?_, hrun⟩
  have hfaults : (Tree.fresh { Shape.smallest with syncThreshold := 3 } fun a b =>
      if a = 666 ∨ b = 666 then Float.nan else hamming a b).faults
        [.addBatch [(1, 1), (2, 2), (3, 3)], .add 1 7, .add 2 8, .delete 2, .addBatch [(4, 666)],
          .lookUp 1, .lookUp 2] = some [none, none, none, none,
            some (.batchRolledBack (.incompleteCollation 0 0 1) [(1, 7), (4, 666)]), none,
            none] := by
    decide +kernel
  obtain ⟨t'', answers', hok', hanswers⟩ := Tree.faults_eq_some.1 hfaults
  obtain ⟨-, rfl⟩ := Prod.mk.inj (Except.ok.inj (hok.symm.trans hok'))
  exact hanswers

end Ledger

end Vantage
