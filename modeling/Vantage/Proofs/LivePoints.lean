/-
**Ids, live points and what is remembered for a rollback agree.**

An id stands for a point exactly when that point is live; so no two live points share an id. Points
lose and regain their entries in many ways: an id is registered again or deleted, points die while
they wait, a leaf is built anew, a flush is committed or rolled back, everything is given up.
Between operations the entries, the points and what is remembered since the last flush always agree:
an id that was registered since has a point that waits, and a point that is remembered for it is
held by a node, is dead, and has been replaced by one that waits.

Placing points revives none, for it never handles a dead one: a flush takes live points from those
that wait, and a node that takes in or passes on points takes in and passes on live ones.

Main definitions:

* `Tree.Awaits` — every id registered since the last flush has a point that waits;
* `Job.Serves` — the places that are served when points are handed to a place;
* `Tree.Agrees` — ids, live points and remembered points agree.

Main results:

* `Tree.Performs.awaits`, `Tree.Reachable.awaits` — registered ids have points that wait, after an
  operation as before it, and so in every reachable tree;
* `Job.Serves.live` — **places are handed live points**, down from the root;
* `Tree.Reachable.agrees` — **after every run the three agree**.
-/

import Vantage.Proofs.Growing

set_option relaxedAutoImplicit false
set_option autoImplicit false

namespace Vantage

/-! ### Points that wait -/

namespace Tree

variable {t t' : Tree}

/-- Every id that was registered since the last flush has a point that waits, be it dead or live. -/
def Awaits (t : Tree) : Prop :=
  ∀ id ∈ t.prior, ∃ slot ∈ t.arrivals, ∃ p, t.points.get? slot = some p ∧ p.id = id

/-- Nothing is remembered, so nothing needs to wait. -/
theorem awaits_of_prior (h : t.prior = ∅) : t.Awaits := by
  intro id hid
  rw [h] at hid
  exact absurd hid (by simp)

/-- A point that is retired is still a point of its id. -/
theorem exists_point_of_retire {points points' : Slots Point} {gone id : Int64} {slot : Nat}
    (h : points'.get? slot = (points.get? slot).map (Point.retire gone))
    (hpoint : ∃ p, points.get? slot = some p ∧ p.id = id) :
    ∃ p, points'.get? slot = some p ∧ p.id = id := by
  obtain ⟨p, hp, rfl⟩ := hpoint
  exact ⟨p.retire gone, by rw [h, hp, Option.map_some], Point.id_retire gone p⟩

/-- The new point of an id waits, and those of other ids wait still. -/
theorem Registers.awaits {id : Int64} {value : UInt64} {slot : Nat}
    (hr : t.Registers id value slot t') (h : t.Awaits) : t'.Awaits := by
  intro i hi
  rw [hr.prior, mem_insertIfNew_id] at hi
  rw [hr.arrivals]
  rcases hi with rfl | hi
  · exact ⟨slot, by simp, _, hr.self, rfl⟩
  · obtain ⟨other, hother, hpoint⟩ := h i hi
    exact ⟨other, List.mem_append_left _ hother,
      exists_point_of_retire (hr.get?_of_mem (List.mem_append_right _ hother)) hpoint⟩

/-- Deleting an id leaves its points where they wait. -/
theorem Deletes.awaits {id : Int64} (hd : t.Deletes id t') (h : t.Awaits) : t'.Awaits := by
  intro i hi
  obtain ⟨slot, hslot, hpoint⟩ := h i (hd.mem_prior.1 hi)
  rw [hd.arrivals]
  exact ⟨slot, hslot, exists_point_of_retire (hd.get? slot) hpoint⟩

/-- **An operation keeps a point waiting for every registered id**, or forgets all of them. -/
theorem Performs.awaits {op : Op} {answer : Answer} (hp : t.Performs op t' answer)
    (h : t.Awaits) : t'.Awaits := by
  cases hp with
  | addWaits hr _ => exact hr.awaits h
  | addFlushes _ _ hf | addBatch _ hf | sync hf => exact awaits_of_prior hf.prior
  | delete hd _ => exact hd.awaits h
  | clear => exact awaits_of_prior rfl
  | lookUp | snapshot | search => exact h

theorem Reachable.awaits {shape : Shape} {metric : Metric} (h : Reachable shape metric t) :
    t.Awaits := by
  induction h with
  | fresh => exact awaits_of_prior rfl
  | step h hop ih => exact (h.sound.1.performs hop).awaits ih

end Tree

/-! ### Points on their way -/

section handed

variable {κ : Type} {shape : Shape} {d : Metric} {below : κ → List UInt64}

/-- A leaf sends live points on when it is handed live points: it drops its dead ones first. -/
theorem Leaf.live_onward {l : Leaf Held} {incoming : List Held} {i : Intake κ}
    (hshape : shape.Sound) (hl : l.Sound shape d Held.value) (hne : incoming ≠ [])
    (h : (Node.leaf l).absorb shape d incoming = .ok i)
    (hlive : ∀ p ∈ incoming, p.live = true) :
    ∀ p ∈ i.onward.flatMap Prod.snd, p.live = true := by
  intro p hp
  rcases Leaf.absorb_cases (fun _ : κ => []) hshape hl hne with ⟨i', hi', hleaf, -, hsound⟩ |
    ⟨b, rest, dead, hb, -, -, -, hrest, -, -, heq⟩
  · -- what has become a leaf sends nothing on
    obtain rfl := Except.ok.inj (h.symm.trans hi')
    obtain ⟨x, hx, hp⟩ := List.mem_flatMap.1 hp
    have hroute := hsound.routes x hx p hp
    cases hnode : i.node with
    | branch b => simp [hnode, Node.isLeaf] at hleaf
    | leaf l' =>
        rw [hnode] at hroute
        exact hroute.elim
  · obtain ⟨⟨b', onward⟩, hcollate, hok⟩ := bind_eq_ok.1 (heq.symm.trans h)
    obtain rfl := Except.ok.inj hok
    obtain ⟨-, hperm, -⟩ := Branch.sound_collate hshape hb hcollate
    exact hrest hlive p (hperm.mem_iff.1 hp)

/-- A node sends live points on when it is handed live points. -/
theorem Node.live_onward {node : Node Held κ} {incoming : List Held} {i : Intake κ}
    (hshape : shape.Sound) (hn : node.Sound shape d Held.value below) (hne : incoming ≠ [])
    (h : node.absorb shape d incoming = .ok i) (hlive : ∀ p ∈ incoming, p.live = true) :
    ∀ p ∈ i.onward.flatMap Prod.snd, p.live = true := by
  cases node with
  | leaf l => exact Leaf.live_onward hshape hn.1 hne h hlive
  | branch b =>
      intro p hp
      obtain ⟨⟨b', onward⟩, hcollate, hok⟩ := bind_eq_ok.1 h
      obtain rfl := Except.ok.inj hok
      rw [Branch.absorb_of_full (Branch.Sound.vantage hn)] at hcollate
      obtain ⟨-, hperm, -⟩ := Branch.sound_collate hshape hn hcollate
      exact hlive p (hperm.mem_iff.1 hp)

end handed

namespace Job

variable {shape : Shape} {d : Metric} {points : Slots Point} {job job' : Job}

/-- The places that are served when points are handed to a place: that place, and the places to
which places that were served send points on. -/
inductive Serves (shape : Shape) (d : Metric) (points : Slots Point) : Job → Job → Prop where
  | here (job : Job) : Serves shape d points job job
  | onward {job next job' : Job} {i : Intake Subtree} {stage : Stage}
      (h : job.Served shape d points i stage) (hnext : next ∈ stage.jobs)
      (hrest : Serves shape d points next job') : Serves shape d points job job'

/-- A served place sends live points on when it is handed live points. -/
theorem Served.live_below {i : Intake Subtree} {stage : Stage} (hshape : shape.Sound)
    (h : job.Served shape d points i stage) (hlive : ∀ p ∈ job.points, p.live = true) :
    ∀ next ∈ stage.jobs, ∀ p ∈ next.points, p.live = true := by
  have honward : ∀ p ∈ i.onward.flatMap Prod.snd, p.live = true := by
    obtain ⟨site, incoming⟩ := job
    cases site with
    | none =>
        -- nothing stood there, so all points of the node were handed to it
        intro p hp
        refine hlive p (h.yields.intake.perm.mem_iff.1 ?_)
        exact List.mem_append_right _ (List.mem_append_left _ hp)
    | some t =>
        exact Node.live_onward hshape (Ready.sound_looked (h.ready.site t rfl)) h.ready.nonempty
          h.attempt hlive
  intro next hnext p hp
  obtain ⟨x, hx, rfl⟩ := h.yields.mem_jobs hnext
  exact honward p (List.mem_flatMap.2 ⟨x, hx, hp⟩)

/-- **Places are handed live points**, if the first of them is. -/
theorem Serves.live (hshape : shape.Sound) (h : Serves shape d points job job')
    (hlive : ∀ p ∈ job.points, p.live = true) : ∀ p ∈ job'.points, p.live = true := by
  induction h with
  | here job => exact hlive
  | onward h hnext hrest ih => exact ih (h.live_below hshape hlive _ hnext)

end Job

/-! ### Agreement -/

namespace Tree

variable {t t' : Tree} {shape : Shape} {metric : Metric}

/-- **Ids, live points and remembered points agree.** -/
structure Agrees (t : Tree) : Prop where
  /-- A point is live exactly when its id stands for it. -/
  live : ∀ slot p, t.points.get? slot = some p → (p.live = true ↔ t.ids[p.id]? = some slot)
  /-- An id stands for a point of that id. -/
  stands : ∀ (id : Int64) slot, t.ids[id]? = some slot →
    ∃ p, t.points.get? slot = some p ∧ p.id = id
  /-- No two live points share an id. -/
  unique : ∀ slot slot' p p', t.points.get? slot = some p → t.points.get? slot' = some p' →
    p.live = true → p'.live = true → p.id = p'.id → slot = slot'
  /-- An id that was registered since the last flush has a point that waits. -/
  waits : ∀ id ∈ t.prior, ∃ slot ∈ t.arrivals, ∃ p, t.points.get? slot = some p ∧ p.id = id
  /-- A point that is remembered for an id is one of its points, is held by a node and does not
  wait, and is dead; and the id stands for one of its points that waits. -/
  former : ∀ (id : Int64) slot, t.prior[id]? = some (some slot) →
    (∃ s ∈ t.nodes, slot ∈ s.node.points) ∧ slot ∉ t.arrivals ∧
      (∃ p, t.points.get? slot = some p ∧ p.id = id ∧ p.live = false) ∧
      ∃ other ∈ t.arrivals, t.ids[id]? = some other ∧
        ∃ p, t.points.get? other = some p ∧ p.id = id
  /-- The next flush hands live points to nodes, whichever places it comes to serve. -/
  handed : ∀ job, Job.Serves t.shape t.metric t.swept.points ⟨t.root, t.batch⟩ job →
    ∀ p ∈ job.points, p.live = true

/-- The id of a remembered point stands for one that waits. -/
theorem Sound.exists_replacement (h : t.Sound) {id : Int64} {slot : Nat}
    (hformer : t.prior[id]? = some (some slot)) :
    ∃ other ∈ t.arrivals, t.ids[id]? = some other ∧
      ∃ p, t.points.get? other = some p ∧ p.id = id := by
  obtain ⟨-, -, hmem⟩ := h.former id slot hformer
  obtain ⟨other, hother⟩ := mem_iff_getElem?_id.1 hmem
  obtain ⟨p, hp, hid, -⟩ := h.exists_point hother
  exact ⟨other, h.waiting id other (mem_iff_getElem?_id.2 ⟨_, hformer⟩) hother, hother, p, hp, hid⟩

/-- In a sound tree whose registered ids have points that wait, the three agree. -/
theorem Sound.agrees_of_awaits (h : t.Sound) (hawaits : t.Awaits) : t.Agrees where
  live slot p hp := by
    constructor
    · exact h.ids_of_live hp
    · intro hid
      obtain ⟨q, hq, -, hlive⟩ := h.exists_point hid
      exact Option.some.inj (hq.symm.trans hp) ▸ hlive
  stands id slot hid := by
    obtain ⟨p, hp, hpid, -⟩ := h.exists_point hid
    exact ⟨p, hp, hpid⟩
  unique slot slot' p p' hp hp' hlive hlive' hid := by
    have hslot := h.ids_of_live hp hlive
    rw [hid, h.ids_of_live hp' hlive'] at hslot
    exact (Option.some.inj hslot).symm
  waits := hawaits
  former id slot hformer := by
    obtain ⟨hheld, hdead, -⟩ := h.former id slot hformer
    exact ⟨exists_node_of_mem_held hheld, h.not_mem_arrivals hheld, hdead,
      h.exists_replacement hformer⟩
  handed job hjob := hjob.live h.shape fun _ hp => (mem_batch hp).2.2

/-- **After every run ids, live points and remembered points agree.**  Whatever the metric, every
run from a reachable tree is carried out, failed flushes included, and at its end the three agree.
-/
theorem Reachable.agrees (h : Reachable shape metric t) (ops : List Op) :
    ∃ t' answers, t.performAll ops = .ok (t', answers) ∧ t'.Agrees := by
  obtain ⟨t', answers, hok⟩ := h.sound.1.exists_performAll ops
  have hend := h.performAll hok
  exact ⟨t', answers, hok, hend.sound.1.agrees_of_awaits hend.awaits⟩

/-- A batch is rolled back that had replaced an entry; then the entry is replaced again, and another
is added and deleted. What the first id had is remembered, and nothing for the second. -/
theorem agrees_replaced :
    ∃ t answers, (fresh { Shape.smallest with syncThreshold := 3 } fun _ _ => Float.nan).performAll
        [.addBatch [(1, 1)], .addBatch [(1, 2), (2, 2), (3, 3)], .add 1 4, .add 2 5, .delete 2] =
          .ok (t, answers) ∧
      answers.map Answer.fault? = [none, some
        (.batchRolledBack (.incompleteCollation 0 0 2) [(1, 2), (2, 2), (3, 3)]), none, none,
        none] ∧
      t.prior[(1 : Int64)]? = some (some 0) ∧ t.prior[(2 : Int64)]? = some none ∧ t.Agrees := by
  have hfresh : Reachable { Shape.smallest with syncThreshold := 3 } (fun _ _ => Float.nan)
      (fresh { Shape.smallest with syncThreshold := 3 } fun _ _ => Float.nan) :=
    .fresh (by decide)
  obtain ⟨t, answers, hok, hagrees⟩ := hfresh.agrees
    [.addBatch [(1, 1)], .addBatch [(1, 2), (2, 2), (3, 3)], .add 1 4, .add 2 5, .delete 2]
  have hresult : (((fresh { Shape.smallest with syncThreshold := 3 }
      fun _ _ => Float.nan).performAll
        [.addBatch [(1, 1)], .addBatch [(1, 2), (2, 2), (3, 3)], .add 1 4, .add 2 5,
          .delete 2]).toOption.any fun r =>
      decide (r.2.map Answer.fault? = [none, some
          (.batchRolledBack (.incompleteCollation 0 0 2) [(1, 2), (2, 2), (3, 3)]), none, none,
          none] ∧
        r.1.prior[(1 : Int64)]? = some (some 0) ∧ r.1.prior[(2 : Int64)]? = some none)) = true := by
    decide +kernel
  rw [hok] at hresult
  obtain ⟨hanswers, hfirst, hsecond⟩ := of_decide_eq_true hresult
  exact ⟨t, answers, hok, hanswers, hfirst, hsecond, hagrees⟩

end Tree

end Vantage
