/-
**A linked tree answers as a tree of values.**

Whatever is done to a linked tree, it goes on to have the entries and the nodes of the tree of
values to which the same is done, and answers as that tree does. A flush is where the two differ in
what they do: the one changes nodes where they lie and undoes its changes when a node refuses, the
other makes a new tree and drops it.

Main definitions:

* `LinkedTree.Alike` — two computations give the same answer, and trees with the same entries and
  nodes;
* `LinkedTree.Reachable` — the linked trees to which runs lead.

Main results:

* `LinkedTree.Shows.commit`, `LinkedTree.Shows.exists_rollback` — the two ends of a flush;
* `LinkedTree.Shows.flush` — **a flush comes to the same**;
* `LinkedTree.Shows.perform`, `LinkedTree.Shows.performAll` — operations, and **whole runs**;
* `LinkedTree.restore_alike`, `LinkedTree.reachable_of_restore` — rebuilding a tree;
* `LinkedTree.Reachable.exists_shows` — a linked tree to which a run leads has the entries and the
  nodes of a tree of values to which one does;
* `LinkedTree.Reachable.exists_perform` — **every operation answers**.
-/

import Vantage.Linked.Operations
import Vantage.Proofs.LinkedPlacing
import Vantage.Proofs.LinkedReading
import Vantage.Proofs.Runs

set_option relaxedAutoImplicit false
set_option autoImplicit false

namespace Vantage

namespace LinkedTree

variable {c c' : LinkedTree} {t t' : Tree} {α β : Type}

/-- Two computations give the same answer, and trees with the same entries and nodes. -/
def Alike (x : Except Breach (LinkedTree × α)) (y : Except Breach (Tree × α)) : Prop :=
  ∃ c t a, x = .ok (c, a) ∧ y = .ok (t, a) ∧ c.Shows t ∧ t.Sound

namespace Alike

variable {x : Except Breach (LinkedTree × α)} {y : Except Breach (Tree × α)}

theorem done (hc : c.Shows t) (h : t.Sound) (a : α) : Alike (.ok (c, a)) (.ok (t, a)) :=
  ⟨c, t, a, rfl, rfl, hc, h⟩

/-- What goes on alike from the same answer goes on alike. -/
theorem bind (hxy : Alike x y) {f : LinkedTree × α → Except Breach (LinkedTree × β)}
    {g : Tree × α → Except Breach (Tree × β)}
    (hfg : ∀ c t a, c.Shows t → t.Sound → Alike (f (c, a)) (g (t, a))) :
    Alike (x >>= f) (y >>= g) := by
  obtain ⟨c, t, a, rfl, rfl, hc, h⟩ := hxy
  exact hfg c t a hc h

end Alike

namespace Shows

/-! ### Entries -/

/-- The nodes are the same whatever the entries are. -/
theorem withRegistry (hc : c.Shows t) (r : Registry) :
    Shows { c with toRegistry := r } { t with toRegistry := r } :=
  ⟨rfl, hc.shape, hc.metric, hc.labels, hc.top, hc.nodes⟩

theorem register (hc : c.Shows t) {id : Int64} {value : UInt64}
    (h : t.register id value = .ok t') : ∃ c', c.register id value = .ok c' ∧ c'.Shows t' := by
  obtain ⟨r, hr, h⟩ := bind_eq_ok.1 h
  obtain rfl := Except.ok.inj h
  refine ⟨_, bind_eq_ok.2 ⟨r, ?_, rfl⟩, hc.withRegistry r⟩
  rw [hc.registry, hr]

theorem registerAll (hc : c.Shows t) {entries : List Entry}
    (h : t.registerAll entries = .ok t') :
    ∃ c', c.registerAll entries = .ok c' ∧ c'.Shows t' := by
  obtain ⟨r, hr, h⟩ := bind_eq_ok.1 h
  obtain rfl := Except.ok.inj h
  refine ⟨_, bind_eq_ok.2 ⟨r, ?_, rfl⟩, hc.withRegistry r⟩
  rw [hc.registry, hr]

theorem delete (hc : c.Shows t) {id : Int64} {point : Option Point}
    (h : t.delete id = .ok (t', point)) : ∃ c', c.delete id = .ok (c', point) ∧ c'.Shows t' := by
  obtain ⟨⟨r, found⟩, hr, h⟩ := bind_eq_ok.1 h
  obtain ⟨rfl, rfl⟩ := Prod.mk.inj (Except.ok.inj h)
  refine ⟨_, bind_eq_ok.2 ⟨(r, found), ?_, rfl⟩, hc.withRegistry r⟩
  rw [hc.registry, hr]

/-! ### The two ends of a flush -/

theorem holds (hc : c.Shows t) (hl : t.labels.Holds t.slots) : c.nodes.Holds t.slots :=
  Slots.holds_units.1 (hc.labels ▸ hl)

/-- **A batch that is placed is taken over.**  The slots that are freed are not those of the new
tree. -/
theorem commit (hc : c.Shows t) {w : Work} {root : Subtree} {p : Progress}
    (htracks : w.Tracks t.points p) (htop : w.root = some root.slot) (hnodes : w.nodes.Shows root)
    (hslots : (p.labels.freeAll p.discarded).Holds root.slots) :
    (c.commit w).Shows (t.commit (some root) p) := by
  have hunits : (w.nodes.freeAll w.journal.discarded).units = p.labels.freeAll p.discarded := by
    rw [Slots.units_freeAll, htracks.labels, htracks.discarded]
  have hpoints : w.points.freeAll w.journal.dead = t.points.freeAll p.dead := by
    rw [htracks.points, htracks.dead]
  refine ⟨?_, hc.shape, hc.metric, hunits, htop, fun r hr => ?_⟩
  · change { c.toRegistry with points := w.points.freeAll w.journal.dead } = _
    rw [hpoints, hc.registry]
    rfl
  · obtain rfl := Option.some.inj hr
    refine hnodes.congr fun slot hslot => ?_
    rw [← hunits, Slots.holds_units] at hslots
    obtain ⟨cell, hcell⟩ := hslots.exists_get? hslot
    exact hcell.trans (Slots.get?_of_freeAll _ hcell).symm

/-- **A batch that is refused is undone.**  The nodes that were changed are put back, and those that
were made are gone. -/
theorem exists_rollback (hc : c.Shows t) (hl : t.labels.Holds t.slots) {w : Work} {created : Nat}
    {batch : Batch} (hchanges : Work.Changes c.work w) (hhalts : w.Halts t.points created)
    (hrollback : t.rollback batch created = .ok t') :
    ∃ c', c.rollback w batch = .ok c' ∧ c'.Shows t' := by
  obtain ⟨hroot, hget, hunits⟩ := Work.undo_of_changes hchanges (hc.holds hl) rfl
  obtain ⟨r, hr, hrollback⟩ := bind_eq_ok.1 hrollback
  obtain rfl := Except.ok.inj hrollback
  have hregistry : (c.takeOver w.undo).toRegistry = t.toRegistry := by
    change { c.toRegistry with points := w.points } = _
    rw [hhalts.points, hc.registry]
  refine ⟨_, bind_eq_ok.2 ⟨r, ?_, rfl⟩, ⟨rfl, hc.shape, hc.metric, ?_, ?_, fun root hr => ?_⟩⟩
  · rw [hregistry, hr]
  · change w.undo.nodes.units = t.labels.lend () created
    rw [hunits, hhalts.created, ← hc.labels]
    rfl
  · exact hroot.trans hc.top
  · exact (hc.nodes root hr).congr fun slot _ => hget slot

/-! ### Flushes -/

/-- The place of the root stands as it does among values. -/
theorem begins (hc : c.Shows t) (hl : t.labels.Holds t.slots) :
    c.work.Begins t.points t.labels t.root where
  tracks := ⟨by rw [← hc.registry]; rfl, hc.labels, rfl, rfl, rfl⟩
  top := hc.top
  shows := hc.nodes
  nodup root hroot := by
    have hnodup := hl.nodup
    rwa [Tree.slots, show t.root = some root from hroot] at hnodup

/-- **A flush comes to the same**, whether the batch is placed or refused. -/
theorem flush (hc : c.Shows t) (h : t.Sound) : Alike c.flush t.flush := by
  have hswept : Shows { c with toRegistry := t.swept.toRegistry } t.swept := hc.withRegistry _
  have htake : c.toRegistry.take = .ok t.taken := by rw [hc.registry, Tree.take_eq h]
  rw [LinkedTree.flush, htake, ok_bind, Tree.flush_eq h]
  by_cases hempty : t.batch = []
  · have hcond : t.batch.isEmpty = true := by rw [hempty]; rfl
    exact ⟨_, _, .ok (), if_pos hcond, if_pos hcond, hswept, Tree.sound_swept h hempty⟩
  have hcond : ¬ t.batch.isEmpty = true := by simpa using hempty
  rw [if_neg hcond]
  have hplace : Placing.place t.shape t.metric = Placing.place c.shape c.metric := by
    rw [hc.shape, hc.metric]
  -- the batch is handed to the root on both sides
  have hplaces := Placing.follows_place h.shape hempty (fun _ hx => Tree.heldAt_swept h hx)
    (fun _ hx => (Tree.mem_batch hx).2.2) (Tree.sound_root_swept h) (Tree.holds_swept h)
    (hswept.holds h.labels) (hswept.begins h.labels)
  rcases hplaces with ⟨fault, created, w, hvalue, hstore, hhalts⟩ |
    ⟨root, p, w, hvalue, hstore, htracks, htop, hnodes⟩
  · obtain ⟨r, hreinstate, hr⟩ := Tree.exists_reinstate_dropped h
    have hrollback : t.swept.rollback t.taken.1 created = .ok (t.rolledBack created r) :=
      bind_eq_ok.2 ⟨r, hreinstate, rfl⟩
    obtain ⟨c', hc', hshows⟩ :=
      hswept.exists_rollback h.labels (Placing.changes_place hstore) hhalts hrollback
    refine ⟨c', t.rolledBack created r, .error (.batchRolledBack fault (t.batch.map Held.entry)),
      (if_neg hcond).trans ?_, ?_, hshows,
      Tree.sound_reinstated h hr⟩
    · exact bind_eq_ok.2 ⟨(.error fault, w), hplace ▸ hstore, bind_eq_ok.2 ⟨c', hc', rfl⟩⟩
    · rw [show place t.shape t.metric t.swept.points t.labels t.root t.batch = _ from hvalue]
      exact bind_eq_ok.2 ⟨_, hrollback, rfl⟩
  · rcases Tree.place_batch_cases h hempty with ⟨fault, created, hrefused⟩ |
      ⟨root', p', minted, gone, dead, hplaced, hadv, hs⟩
    · exact absurd (hvalue.symm.trans hrefused) (by simp)
    obtain ⟨hroot, rfl⟩ := Prod.mk.inj (Except.ok.inj (hvalue.symm.trans hplaced))
    obtain rfl := Option.some.inj hroot
    have hsound := Tree.sound_commit h hadv hs
    refine ⟨_, _, .ok (), (if_neg hcond).trans ?_, ?_,
      hswept.commit htracks htop hnodes hsound.labels, hsound⟩
    · exact bind_eq_ok.2 ⟨(.ok (), w), hplace ▸ hstore, rfl⟩
    · rw [show place t.shape t.metric t.swept.points t.labels t.root t.batch = _ from hvalue]

/-! ### Operations -/

theorem add (hc : c.Shows t) (h : t.Sound) (id : Int64) (value : UInt64) :
    Alike (c.add id value) (t.add id value) := by
  obtain ⟨slot, t₁, hok, hr⟩ := Tree.exists_register h id value
  obtain ⟨c₁, hok', hc₁⟩ := hc.register hok
  have hpending : c₁.pending = t₁.pending := by rw [hc₁.registry]
  rw [LinkedTree.add, Tree.add, hok, hok', ok_bind, ok_bind, hc₁.shape, hpending]
  split
  · exact hc₁.flush (hr.sound h)
  · exact .done hc₁ (hr.sound h) _

theorem addBatch (hc : c.Shows t) (h : t.Sound) (entries : List Entry) :
    Alike (c.addBatch entries) (t.addBatch entries) := by
  obtain ⟨t₁, hok, hr⟩ := Tree.exists_registerAll h entries
  obtain ⟨c₁, hok', hc₁⟩ := hc.registerAll hok
  rw [LinkedTree.addBatch, Tree.addBatch, hok, hok', ok_bind, ok_bind]
  exact hc₁.flush (hr.sound h)

/-- Additions one by one stop at the same fault. -/
theorem addAll (hc : c.Shows t) (h : t.Sound) (entries : List Entry) :
    Alike (c.addAll entries) (t.addAll entries) := by
  induction entries generalizing c t with
  | nil => exact .done hc h _
  | cons e rest ih =>
      refine (hc.add h e.1 e.2).bind fun c₁ t₁ outcome hc₁ h₁ => ?_
      cases outcome with
      | error fault => exact .done hc₁ h₁ _
      | ok => exact ih hc₁ h₁

/-- **An operation comes to the same.** -/
theorem perform (hc : c.Shows t) (h : t.Sound) (op : Op) :
    Alike (c.perform op) (t.perform op) := by
  cases op with
  | add id value => exact (hc.add h id value).bind fun _ _ _ hc₁ h₁ => .done hc₁ h₁ _
  | addBatch entries => exact (hc.addBatch h entries).bind fun _ _ _ hc₁ h₁ => .done hc₁ h₁ _
  | sync => exact (hc.flush h).bind fun _ _ _ hc₁ h₁ => .done hc₁ h₁ _
  | delete id =>
      obtain ⟨t₁, hok, hd⟩ := Tree.exists_delete h id
      obtain ⟨c₁, hok', hc₁⟩ := hc.delete hok
      rw [LinkedTree.perform, Tree.perform, hok, hok', ok_bind, ok_bind]
      exact .done hc₁ (hd.sound h) _
  | clear =>
      rw [LinkedTree.perform, Tree.perform, hc.clear_eq h, Tree.clear_eq h, hc.shape, hc.metric]
      exact .done (shows_fresh _ _) (Tree.sound_fresh h.shape _) _
  | lookUp id =>
      rw [LinkedTree.perform, Tree.perform, hc.registry, Tree.lookup?_eq h]
      exact .done hc h _
  | snapshot =>
      rw [LinkedTree.perform, Tree.perform, hc.registry, Tree.snapshot_eq h]
      exact .done hc h _
  | search target radius =>
      rw [LinkedTree.perform, Tree.perform, hc.search_eq h, Tree.search_eq h]
      exact .done hc h _

end Shows

/-! ### Runs -/

/-- **A run comes to the same.** -/
theorem Shows.performAll (hc : c.Shows t) (h : t.Sound) (ops : List Op) :
    Alike (c.performAll ops) (t.performAll ops) := by
  induction ops generalizing c t with
  | nil => exact .done hc h _
  | cons op rest ih =>
      refine (hc.perform h op).bind fun c₁ t₁ answer hc₁ h₁ => ?_
      exact (ih hc₁ h₁).bind fun _ _ _ hc₂ h₂ => .done hc₂ h₂ _

theorem Alike.of_eq_ok {x : Except Breach (LinkedTree × α)} {y : Except Breach (Tree × α)}
    (hxy : Alike x y) {a : α} (hx : x = .ok (c, a)) :
    ∃ t, y = .ok (t, a) ∧ c.Shows t ∧ t.Sound := by
  obtain ⟨c₁, t, a₁, hok, hy, hc, h⟩ := hxy
  obtain ⟨rfl, rfl⟩ := Prod.mk.inj (Except.ok.inj (hx.symm.trans hok))
  exact ⟨t, hy, hc, h⟩

/-- The linked trees that runs lead to. -/
inductive Reachable (shape : Shape) (metric : Metric) : LinkedTree → Prop where
  | fresh (h : shape.Sound) : Reachable shape metric (LinkedTree.fresh shape metric)
  | step {c c' : LinkedTree} {op : Op} {answer : Answer} (h : Reachable shape metric c)
      (hop : c.perform op = .ok (c', answer)) : Reachable shape metric c'

namespace Reachable

variable {shape : Shape} {metric : Metric}

/-- **A run of a linked tree is a run of a tree of values.** -/
theorem exists_shows (h : Reachable shape metric c) :
    ∃ t, Tree.Reachable shape metric t ∧ c.Shows t := by
  induction h with
  | fresh hshape => exact ⟨_, .fresh hshape, shows_fresh shape metric⟩
  | step h hop ih =>
      obtain ⟨t, ht, hc⟩ := ih
      obtain ⟨t', hop', hc', -⟩ := (hc.perform ht.sound.1 _).of_eq_ok hop
      exact ⟨t', ht.step hop', hc'⟩

/-- **Every operation answers**: none finds a slot empty that should hold a node or a point. -/
theorem exists_perform (h : Reachable shape metric c) (op : Op) :
    ∃ c' answer, c.perform op = .ok (c', answer) := by
  obtain ⟨t, ht, hc⟩ := h.exists_shows
  obtain ⟨c', -, answer, hop, -⟩ := hc.perform ht.sound.1 op
  exact ⟨c', answer, hop⟩

/-- A run from a reachable tree ends at one. -/
theorem performAll {ops : List Op} {answers : List Answer} (h : Reachable shape metric c)
    (hok : c.performAll ops = .ok (c', answers)) : Reachable shape metric c' := by
  induction ops generalizing c answers with
  | nil =>
      obtain ⟨rfl, -⟩ := Prod.mk.inj (Except.ok.inj hok)
      exact h
  | cons op rest ih =>
      obtain ⟨⟨c₁, answer⟩, hop, hok⟩ := bind_eq_ok.1 hok
      obtain ⟨⟨c₂, answers⟩, hrest, hok⟩ := bind_eq_ok.1 hok
      obtain ⟨rfl, -⟩ := Prod.mk.inj (Except.ok.inj hok)
      exact ih (h.step hop) hrest

/-- Adding entries one by one is a run. -/
theorem addAll {entries : List Entry} {outcome : Except Fault Unit}
    (h : Reachable shape metric c) (hok : c.addAll entries = .ok (c', outcome)) :
    Reachable shape metric c' := by
  induction entries generalizing c with
  | nil =>
      obtain ⟨rfl, -⟩ := Prod.mk.inj (Except.ok.inj hok)
      exact h
  | cons e rest ih =>
      obtain ⟨⟨c₁, first⟩, hadd, hok⟩ := bind_eq_ok.1 hok
      have hop : c.perform (.add e.1 e.2) = .ok (c₁, .done first) := by
        rw [perform, hadd]
        rfl
      cases first with
      | error fault =>
          obtain ⟨rfl, -⟩ := Prod.mk.inj (Except.ok.inj hok)
          exact h.step hop
      | ok => exact ih (h.step hop) hok

end Reachable

/-! ### Rebuilding a tree -/

/-- A tree that was rebuilt is reachable. -/
theorem reachable_of_restore {snapshot : Snapshot} {shape : Shape} {metric : Metric}
    (h : restore snapshot shape metric = .ok (.ok c)) : Reachable shape metric c := by
  rw [restore, ofShape] at h
  cases hdefect : shape.defect? with
  | some defect =>
      rw [hdefect] at h
      cases h
  | none =>
      rw [hdefect] at h
      obtain ⟨⟨c₁, outcome⟩, hall, h⟩ := bind_eq_ok.1 h
      have hfresh : Reachable shape metric (LinkedTree.fresh shape metric) := .fresh hdefect
      have hreach := hfresh.addAll hall
      cases outcome with
      | error fault => cases h
      | ok =>
          obtain ⟨⟨c₂, outcome⟩, hflush, h⟩ := bind_eq_ok.1 h
          have hop : c₁.perform .sync = .ok (c₂, .done outcome) := by
            rw [perform, hflush]
            rfl
          cases outcome with
          | error fault => cases h
          | ok =>
              obtain rfl := Except.ok.inj (Except.ok.inj h)
              exact hreach.step hop

/-- **Rebuilding a tree comes to the same**: the same fault, or trees with the same entries and
nodes. -/
theorem restore_alike (snapshot : Snapshot) (shape : Shape) (metric : Metric) :
    (∃ fault, restore snapshot shape metric = .ok (.error fault) ∧
      Tree.restore snapshot shape metric = .ok (.error fault)) ∨
    ∃ c t, restore snapshot shape metric = .ok (.ok c) ∧
      Tree.restore snapshot shape metric = .ok (.ok t) ∧ c.Shows t := by
  rw [restore, Tree.restore, ofShape, Tree.ofShape]
  cases hdefect : shape.defect? with
  | some defect => exact .inl ⟨_, rfl, rfl⟩
  | none =>
      have hshape : shape.Sound := hdefect
      have hfresh := Tree.sound_fresh hshape metric
      obtain ⟨c, t, outcome, hc, ht, hshows, hsound⟩ :=
        (shows_fresh shape metric).addAll hfresh snapshot.entries
      cases outcome with
      | error fault =>
          exact .inl ⟨fault, bind_eq_ok.2 ⟨_, hc, rfl⟩, bind_eq_ok.2 ⟨_, ht, rfl⟩⟩
      | ok =>
          obtain ⟨c', t', outcome, hc', ht', hshows', -⟩ := hshows.flush hsound
          cases outcome with
          | error fault =>
              exact .inl ⟨fault, bind_eq_ok.2 ⟨_, hc, bind_eq_ok.2 ⟨_, hc', rfl⟩⟩,
                bind_eq_ok.2 ⟨_, ht, bind_eq_ok.2 ⟨_, ht', rfl⟩⟩⟩
          | ok =>
              exact .inr ⟨c', t', bind_eq_ok.2 ⟨_, hc, bind_eq_ok.2 ⟨_, hc', rfl⟩⟩,
                bind_eq_ok.2 ⟨_, ht, bind_eq_ok.2 ⟨_, ht', rfl⟩⟩, hshows'⟩

end LinkedTree

end Vantage
