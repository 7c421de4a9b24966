/-
**The one fault that a flush can meet, and the bounds within which everything stays.**

What becomes of points at a place is decided by how one branch routes some of them, or it is a leaf.
So the only fault that a placement can meet is that a branch cannot route points, because points of
one of its buckets belong to none of its parts: leaves do not overflow, branches find as many points
as they need, and the children to which points are sent exist or have a place. A tree that is used
through its operations never looks for a slot that is free, and its nodes stay within their bounds.

Main definitions:

* `Intake.Decided` — how one branch routes points decides what becomes of points;
* `Leaf.InBounds`, `Branch.InBounds`, `Tree.InBounds` — bounds that nodes keep, and with them all
  that is looked up and divided.

Main results:

* `isStray_of_place`, `Tree.Flushes.isStray` — **when a placement is refused, points are stray**;
* `Tree.Reachable.inBounds` — **a reachable tree stays within its bounds**;
* `Tree.run_within_bounds` — every run answers, and so does rebuilding a tree; a fault says that
  points are stray, and with a sortable metric there is none.
-/

import Vantage.Proofs.Dividing
import Vantage.Proofs.LinearScan
import Vantage.Proofs.Growing
import Vantage.Proofs.Restoring

set_option relaxedAutoImplicit false
set_option autoImplicit false

namespace Vantage

variable {π ρ κ : Type} {shape : Shape} {d : Metric}

/-! ### What decides about points -/

namespace Node

/-- The levels of a branch; a leaf has none. -/
def levels : Node π κ → List Level
  | .leaf _ => []
  | .branch b => b.levels

@[simp] theorem levels_mapPoints (f : π → ρ) (node : Node π κ) :
    (node.mapPoints f).levels = node.levels := by
  cases node <;> rfl

@[simp] theorem levels_relink (node : Node π κ) (links : List (Nat × κ)) :
    (node.relink links).levels = node.levels := by
  cases node with
  | leaf l => rw [relink_leaf]
  | branch b =>
      rw [relink_branch]
      rfl

end Node

/-- A leaf takes the points, or a sound branch routes some of them and all else follows from that.
The branch has the levels that were there, or is a new one. -/
def Intake.Decided (shape : Shape) (d : Metric) (below : κ → List UInt64) (levels : List Level)
    (outcome : Except Fault (Intake κ)) : Prop :=
  (∃ i, outcome = .ok i ∧ i.node.isLeaf = true) ∨
    ∃ (b : Branch Held κ) (rest : List Held) (wrap : Branch Held κ × Buckets → Intake κ),
      b.Sound shape d Held.value below ∧
        (b.levels = levels ∨ b.levels = (Branch.new shape : Branch Held κ).levels) ∧
        (∀ r, (wrap r).node = .branch r.1) ∧
        outcome = do return wrap (← b.collate d shape.branchFactor rest)

namespace Intake.Decided

variable {below : κ → List UInt64} {levels : List Level} {outcome : Except Fault (Intake κ)}

/-- The only fault is that points are stray. -/
theorem isStray (hshape : shape.Sound) (h : Decided shape d below levels outcome) {fault : Fault}
    (hfault : outcome = .error fault) : fault.IsStray shape := by
  rcases h with ⟨i, hok, -⟩ | ⟨b, rest, wrap, hb, -, -, hdecides⟩
  · rw [hok] at hfault
    cases hfault
  · rw [hdecides] at hfault
    rcases bind_eq_error.1 hfault with hcollate | ⟨_, -, hok⟩
    · exact Branch.isStray_of_collate hshape hb hcollate
    · cases hok

/-- The levels of the node have the buckets that their numbers call for. -/
theorem within (hshape : shape.Sound) (h : Decided shape d below levels outcome)
    (hlevels : LevelsWithin shape.branchFactor 0 levels) {i : Intake κ} (hi : outcome = .ok i) :
    LevelsWithin shape.branchFactor 0 i.node.levels := by
  rcases h with ⟨i', hok, hleaf⟩ | ⟨b, rest, wrap, hb, hb', hwrap, hdecides⟩
  · obtain rfl := Except.ok.inj (hok.symm.trans hi)
    cases hnode : i'.node with
    | leaf l => exact levelsWithin_nil
    | branch b =>
        rw [hnode] at hleaf
        cases hleaf
  · obtain ⟨⟨b', onward⟩, hcollate, hok⟩ := bind_eq_ok.1 (hdecides.symm.trans hi)
    obtain rfl := Except.ok.inj hok
    have hwithin : LevelsWithin shape.branchFactor 0 b.levels := by
      rcases hb' with hsame | hnew
      · rwa [hsame]
      · rw [hnew]
        exact Branch.within_new hshape
    rw [hwrap]
    exact Branch.within_collate (Nat.lt_of_lt_of_le (by decide) hshape.branchFactor)
      (hb.vantage.trans hb.length.symm) hb.levels hwithin hcollate

end Intake.Decided

namespace Node

variable {below : κ → List UInt64} {incoming : List Held}

theorem decided_absorb_leaf (below : κ → List UInt64) {l : Leaf Held} (hshape : shape.Sound)
    (hl : l.Sound shape d Held.value) (hne : incoming ≠ []) :
    Intake.Decided shape d below [] ((Node.leaf l).absorb shape d incoming) := by
  rcases Leaf.absorb_cases below hshape hl hne with ⟨i, hi, hleaf, -⟩ |
    ⟨b, rest, dead, hb, hnew, -, -, -, -, -, heq⟩
  · exact .inl ⟨i, hi, hleaf⟩
  · exact .inr ⟨b, rest, _, hb, .inr hnew, fun _ => rfl, heq⟩

theorem decided_absorb {node : Node Held κ} (hshape : shape.Sound)
    (hn : node.Sound shape d Held.value below) (hne : incoming ≠ []) :
    Intake.Decided shape d below node.levels (node.absorb shape d incoming) := by
  cases node with
  | leaf l => exact decided_absorb_leaf below hshape hn.1 hne
  | branch b =>
      refine .inr ⟨b, incoming, fun r => { node := .branch r.1, fresh := false, onward := r.2 }, hn,
        .inl rfl, fun _ => rfl, ?_⟩
      rw [← Branch.absorb_of_full (Branch.Sound.vantage hn)]
      rfl

/-- Points that have no node yet are decided about as if a leaf without points stood there. -/
theorem decided_create (below : κ → List UInt64) (hshape : shape.Sound) (hne : incoming ≠ []) :
    Intake.Decided shape d below [] (create shape d incoming) := by
  rw [create_eq]
  split
  next =>
    rcases decided_absorb_leaf below hshape (Leaf.sound_empty shape d) hne with ⟨i, hi, hleaf⟩ |
      ⟨b, rest, wrap, hb, hnew, hwrap, heq⟩
    · exact .inl ⟨{ i with fresh := true }, by rw [hi]; rfl, hleaf⟩
    · refine .inr ⟨b, rest, fun r => { wrap r with fresh := true }, hb, hnew, hwrap, ?_⟩
      rw [heq, bind_assoc]
      rfl
  next hlimit =>
    have hlevels := hshape.leafLimit.trans (Nat.le_of_not_le hlimit)
    refine .inr ⟨Branch.started shape incoming, (drawBack shape.levelsPerNode incoming).1,
      fun r => { node := .branch r.1, fresh := true, onward := r.2 },
      Branch.sound_started below hlevels, .inr rfl, fun _ => rfl, ?_⟩
    rw [Branch.absorb_new hlevels]

end Node

/-! ### Placements that are refused -/

section refused

variable {points : Slots Point}

namespace Job

variable {job : Job} {p : Progress} {fault : Fault} {created : Nat}

/-- The levels of the node that stands at a place. -/
def levels (job : Job) : List Level := job.site.elim [] fun t => t.node.levels

theorem Ready.decided (h : job.Ready shape d points) (hshape : shape.Sound) :
    Intake.Decided shape d (Subtree.values points) job.levels (job.attempt shape d points) := by
  obtain ⟨site, incoming⟩ := job
  cases site with
  | none => exact Node.decided_create _ hshape h.nonempty
  | some t =>
      have hdecided := Node.decided_absorb hshape (Ready.sound_looked (h.site t rfl)) h.nonempty
      rwa [Node.levels_mapPoints] at hdecided

theorem isStray_of_run (hshape : shape.Sound) (h : job.Ready shape d points)
    (hrun : job.run shape d points p = .error (.refused fault created)) : fault.IsStray shape := by
  cases hi : job.attempt shape d points with
  | ok i =>
      obtain ⟨stage, p', -, -, hok, -⟩ := run_of_attempt h hshape hi p
      rw [hok] at hrun
      cases hrun
  | error fault' =>
      rw [run_eq h.own_occupied, hi] at hrun
      obtain ⟨rfl, -⟩ := Halt.refused.inj (Except.error.inj hrun)
      exact (h.decided hshape).isStray hshape hi

theorem isStray_of_runAll {jobs : List Job} (hshape : shape.Sound)
    (h : ∀ job ∈ jobs, job.Ready shape d points)
    (hrun : runAll shape d points p jobs = .error (.refused fault created)) :
    fault.IsStray shape := by
  induction jobs generalizing p with
  | nil => cases hrun
  | cons job jobs ih =>
      obtain ⟨hjob, hjobs⟩ := List.forall_mem_cons.1 h
      rcases bind_eq_error.1 hrun with hfirst | ⟨⟨stage, p₁⟩, -, hrun⟩
      · exact isStray_of_run hshape hjob hfirst
      · rcases bind_eq_error.1 hrun with hrest | ⟨_, -, hok⟩
        · exact ih hjobs hrest
        · cases hok

end Job

theorem isStray_of_settle {rounds : Nat} {jobs : List Job} {p : Progress} {fault : Fault}
    {created : Nat} (hshape : shape.Sound) (hready : ∀ job ∈ jobs, job.Ready shape d points)
    (h : settle shape d points rounds p jobs = .error (.refused fault created)) :
    fault.IsStray shape := by
  -- induction on the rounds: a round is refused, or the rounds below it are
  induction rounds generalizing p jobs with
  | zero =>
      cases jobs with
      | nil => cases h
      | cons job jobs => cases h
  | succ rounds ih =>
      cases jobs with
      | nil => cases h
      | cons job jobs =>
          rcases bind_eq_error.1 h with hround | ⟨⟨stages, p₁⟩, hround, h⟩
          · exact Job.isStray_of_runAll hshape hready hround
          · rcases bind_eq_error.1 h with hbelow | ⟨_, -, hok⟩
            · exact ih (Job.ready_below_of_runAll hshape hready hround) hbelow
            · cases hok

/-- **When a placement is refused, points are stray.** -/
theorem isStray_of_place {labels : Slots Unit} {root : Option Subtree} {batch : List Held}
    {fault : Fault} {created : Nat} (hshape : shape.Sound)
    (hready : Job.Ready shape d points ⟨root, batch⟩)
    (h : place shape d points labels root batch = .error (.refused fault created)) :
    fault.IsStray shape := by
  rcases bind_eq_error.1 h with hsettle | ⟨_, -, hok⟩
  · exact isStray_of_settle hshape (List.forall_mem_singleton.2 hready) hsettle
  · cases hok

/-- The levels of a node that was served have the buckets that their numbers call for, if those of
the node that stood there had. -/
theorem Job.Served.within {job : Job} {i : Intake Subtree} {stage : Stage} {below : List Subtree}
    (h : job.Served shape d points i stage) (hshape : shape.Sound)
    (hsite : ∀ t ∈ job.site, LevelsWithin shape.branchFactor 0 t.node.levels) :
    LevelsWithin shape.branchFactor 0 (stage.finish below).node.levels := by
  have hlevels : LevelsWithin shape.branchFactor 0 job.levels := by
    unfold Job.levels
    cases hjob : job.site with
    | none => exact levelsWithin_nil
    | some t => exact hsite t hjob
  have hnode : (stage.finish below).node.levels = i.node.levels := by
    change (stage.node.relink _).levels = _
    rw [Node.levels_relink, h.yields.node, Node.levels_mapPoints]
  rw [hnode]
  exact (h.ready.decided hshape).within hshape hlevels h.attempt

end refused

/-! ### Bounds -/

/-- A leaf keeps as many points as it may, and with each stored point a distance for every vantage
point. -/
structure Leaf.InBounds (shape : Shape) (leaf : Leaf π) : Prop where
  vantage : leaf.vantage.length ≤ shape.pathLength
  stored : leaf.stored.length ≤ shape.leafCap
  full : leaf.stored ≠ [] → leaf.vantage.length = shape.pathLength
  gaps : ∀ s ∈ leaf.stored, s.gaps.length = leaf.vantage.length

/-- A branch has all its vantage points and levels; each level has the buckets that its number calls
for, and each bucket that has cuts has one fewer than parts; children have indices below the number
of places. -/
structure Branch.InBounds (shape : Shape) (b : Branch π κ) : Prop where
  fanout : b.fanout = shape.branchFactor ^ shape.levelsPerNode
  vantage : b.vantage.length = shape.levelsPerNode
  length : b.levels.length = shape.levelsPerNode
  levels : LevelsWithin shape.branchFactor 0 b.levels
  cuts : ∀ level ∈ b.levels, ∀ bucket cuts, Keyed.get? bucket level.frozen = some cuts →
    cuts ≠ [] ∧ cuts.length = shape.branchFactor - 1
  children : ∀ x ∈ b.children, x.1 < b.fanout

theorem Leaf.Sound.inBounds {value : π → UInt64} {leaf : Leaf π} (h : leaf.Sound shape d value) :
    leaf.InBounds shape where
  vantage := h.vantage_le
  stored := h.stored_le
  full := h.full
  gaps s hs := by rw [h.gaps s hs, List.length_map]

theorem Branch.Sound.inBounds {value : π → UInt64} {below : κ → List UInt64} {b : Branch π κ}
    (h : b.Sound shape d value below) (hshape : shape.Sound)
    (hlevels : LevelsWithin shape.branchFactor 0 b.levels) : b.InBounds shape where
  fanout := h.fanout.trans hshape.fanout_eq
  vantage := h.vantage
  length := h.length
  levels := hlevels
  cuts level hlevel bucket cuts hcuts := by
    have hlength := (h.levels level hlevel).length bucket cuts hcuts
    have hparts := hshape.branchFactor
    refine ⟨fun hnil => ?_, hlength⟩
    rw [hnil, List.length_nil] at hlength
    omega
  children x hx := (h.inRange x hx).trans_eq h.fanout.symm

namespace Tree

variable {t t' : Tree} {metric : Metric}

/-- The nodes of a tree keep their bounds, and their slots are in use; their points and those that
wait can be looked up; and the buckets that its branches, or new ones, are to divide lie within
their levels and are not empty, whatever points they are handed. -/
structure InBounds (t : Tree) : Prop where
  slots : ∀ s ∈ t.nodes, t.labels.Occupied s.slot
  leaf : ∀ s ∈ t.nodes, ∀ l, s.node = .leaf l → l.InBounds t.shape
  branch : ∀ s ∈ t.nodes, ∀ b, s.node = .branch b → b.InBounds t.shape
  looked : ∀ s ∈ t.nodes, ∃ node, s.node.lookUp t.points = .ok node
  waiting : ∃ waiting, t.points.holdAll t.arrivals = .ok waiting
  divisions : ∀ s ∈ t.nodes, ∀ b, s.node = .branch b → ∀ (points : Slots Point) incoming,
    ∀ x ∈ (b.mapPoints points.heldAt).divisions t.metric t.shape.branchFactor incoming,
      x.InRange t.shape.branchFactor t.shape.levelsPerNode
  started : ∀ incoming : List Held, t.shape.leafLimit < incoming.length →
    (drawBack t.shape.levelsPerNode incoming).2.length = t.shape.levelsPerNode ∧
    ∀ rest, ∀ x ∈ (Branch.started t.shape incoming : Branch Held Subtree).divisions t.metric
      t.shape.branchFactor rest, x.InRange t.shape.branchFactor t.shape.levelsPerNode

/-- Whatever points a branch with sound levels is handed, it divides buckets within its levels. -/
theorem inRange_of_levels {b : Branch Held κ} (hshape : shape.Sound)
    (hlength : b.levels.length = shape.levelsPerNode)
    (hlevels : ∀ level ∈ b.levels, level.Sound d shape.branchFactor) (incoming : List Held) :
    ∀ x ∈ b.divisions d shape.branchFactor incoming,
      x.InRange shape.branchFactor shape.levelsPerNode := by
  have hparts : 0 < shape.branchFactor := Nat.lt_of_lt_of_le (by decide) hshape.branchFactor
  intro x hx
  exact hlength ▸ Branch.inRange_divisions hparts hlevels incoming x hx

/-- **A reachable tree stays within its bounds.** -/
theorem Reachable.inBounds (h : Reachable shape metric t) : t.InBounds := by
  obtain ⟨hsound, rfl, rfl⟩ := h.sound
  have hwithin : ∀ root ∈ t.root, ∀ s ∈ root.all,
      LevelsWithin t.shape.branchFactor 0 s.node.levels :=
    h.forall_nodes (Q := fun node => LevelsWithin t.shape.branchFactor 0 node.levels)
      fun points job i stage below hserved _ hsite => hserved.within hsound.shape hsite
  have hnode : ∀ s ∈ t.nodes, s.node.Sound t.shape t.metric t.points.valueAt
      (Subtree.values t.points) ∧ LevelsWithin t.shape.branchFactor 0 s.node.levels := by
    intro s hs
    obtain ⟨root, hroot, hs⟩ := mem_nodes.1 hs
    exact ⟨hsound.root root hroot s hs, hwithin root hroot s hs⟩
  refine ⟨fun s hs => ?_, fun s hs l hl => ?_, fun s hs b hb => ?_, fun s hs => ?_, ?_,
    fun s hs b hb points incoming => ?_, fun incoming hmany => ?_⟩
  · exact (hsound.labels.occupied s.slot).2 (t.perm_slots.mem_iff.1 (List.mem_map_of_mem hs))
  · obtain ⟨hn, -⟩ := hnode s hs
    rw [hl] at hn
    exact hn.1.inBounds
  · obtain ⟨hn, hlevels⟩ := hnode s hs
    rw [hb] at hn hlevels
    exact Branch.Sound.inBounds hn hsound.shape hlevels
  · refine ⟨_, Node.lookUp_eq fun slot hslot => hsound.held_occupied slot ?_⟩
    exact t.perm_held.mem_iff.1 (List.mem_flatMap.2 ⟨s, hs, hslot⟩)
  · exact ⟨_, t.points.holdAll_eq fun slot hslot =>
      (hsound.points.occupied slot).2 (List.mem_append_right _ hslot)⟩
  · obtain ⟨hn, -⟩ := hnode s hs
    rw [hb] at hn
    have hbranch : b.Sound t.shape t.metric t.points.valueAt (Subtree.values t.points) := hn
    exact inRange_of_levels hsound.shape hbranch.length hbranch.levels incoming
  · have hlevels := hsound.shape.leafLimit.trans hmany.le
    have hstarted := Branch.sound_started (d := t.metric) (fun _ : Subtree => []) hlevels
    exact ⟨hstarted.vantage, fun rest =>
      inRange_of_levels hsound.shape hstarted.length hstarted.levels rest⟩

/-! ### Runs -/

/-- **When a flush is refused, points are stray.** -/
theorem Flushes.isStray {fault : Fault} (hf : t.Flushes (.error fault) t') (h : t.Sound) :
    fault.cause.IsStray t.shape := by
  cases hf with
  | rollsBack source hok hne hsound hb =>
      rw [flush_eq h, if_neg (by simpa using hne)] at hok
      rcases place_batch_cases h hne with ⟨source', created, hplace⟩ |
        ⟨root, p, -, -, -, hplace, -⟩
      · have hstray := isStray_of_place h.shape (h.ready_batch hne) hplace
        rw [hplace] at hok
        obtain ⟨t'', -, hok⟩ := bind_eq_ok.1 hok
        obtain ⟨rfl, -⟩ := Fault.batchRolledBack.inj (Except.error.inj
          (Prod.mk.inj (Except.ok.inj hok)).2)
        obtain ⟨level, bucket, stray, rfl, hrange⟩ := hstray
        exact ⟨level, bucket, stray, rfl, hrange⟩
      · rw [hplace] at hok
        cases hok

theorem Performs.isStray {op : Op} {answer : Answer} {fault : Fault}
    (hp : t.Performs op t' answer) (h : t.Sound) (hfault : answer.fault? = some fault) :
    fault.cause.IsStray t.shape := by
  cases hp with
  | addFlushes hr _ hf =>
      obtain rfl := Answer.done.inj (Answer.fault?_eq_some.1 hfault)
      exact hr.shape ▸ hf.isStray (hr.sound h)
  | addBatch hr hf =>
      obtain rfl := Answer.done.inj (Answer.fault?_eq_some.1 hfault)
      exact hr.shape ▸ hf.isStray (hr.sound h)
  | sync hf =>
      obtain rfl := Answer.done.inj (Answer.fault?_eq_some.1 hfault)
      exact hf.isStray h
  | addWaits | delete | clear | lookUp | snapshot | search => cases hfault

/-- The faults that a run reports say that points are stray. -/
theorem Sound.isStray_of_performAll {ops : List Op} {answers : List Answer} (h : t.Sound)
    (hok : t.performAll ops = .ok (t', answers)) :
    ∀ answer ∈ answers, ∀ fault ∈ answer.fault?, fault.cause.IsStray t.shape := by
  induction ops generalizing t answers with
  | nil =>
      obtain ⟨-, rfl⟩ := Prod.mk.inj (Except.ok.inj hok)
      simp
  | cons op rest ih =>
      obtain ⟨t₁, answer, answers', hop, hrest, rfl⟩ := performAll_cons_eq_ok.1 hok
      have hp := h.performs hop
      refine List.forall_mem_cons.2 ⟨fun fault hfault => hp.isStray h hfault, ?_⟩
      exact hp.shape ▸ ih (hp.sound h) hrest

/-- **Every run stays within bounds.**  Whatever the metric, every operation answers, and so does
rebuilding a tree; a fault says that points of a bucket within its level belong to no part; and the
tree at the end keeps its bounds. With a sortable metric no operation reports a fault, and a tree
can be rebuilt from any entries. -/
theorem run_within_bounds {t₀ : Tree} (h : ofShape shape metric = .ok t₀) :
    (∀ ops, ∃ t answers, t₀.performAll ops = .ok (t, answers) ∧ t.InBounds ∧
      (∀ answer ∈ answers, ∀ fault ∈ answer.fault?, fault.cause.IsStray shape) ∧
      (metric.Sortable → ∀ answer ∈ answers, answer.fault? = none)) ∧
    ∀ snapshot, ∃ outcome, restore snapshot shape metric = .ok outcome ∧
      (∀ fault, outcome = .error fault → fault.cause.IsStray shape) ∧
      (metric.Sortable → ∃ t, outcome = .ok t) := by
  obtain ⟨hshape, rfl⟩ := ofShape_eq_ok.1 h
  have hfresh := sound_fresh hshape metric
  constructor
  · intro ops
    obtain ⟨t, answers, hok⟩ := hfresh.exists_performAll ops
    exact ⟨t, answers, hok, ((Reachable.fresh hshape).performAll hok).inBounds,
      hfresh.isStray_of_performAll hok, fun hd => hfresh.fault?_of_performAll hd hok⟩
  · intro snapshot
    obtain ⟨outcome, hok, hrebuilds⟩ := exists_restore hshape metric snapshot
    refine ⟨outcome, hok, fun fault hfault => ?_, fun hd => ?_⟩
    · obtain ⟨ops, t, answers, hrun, hmem⟩ := hrebuilds.fault fault hfault
      exact hfresh.isStray_of_performAll hrun _ hmem fault rfl
    · cases outcome with
      | ok t => exact ⟨t, rfl⟩
      | error fault =>
          obtain ⟨ops, t, answers, hrun, hmem⟩ := hrebuilds.fault fault rfl
          exact absurd (hfresh.fault?_of_performAll hd hrun _ hmem) (by simp [Answer.fault?])

/-- A batch that no branch can divide is dropped; with the Hamming distance, the same entries can
be placed. -/
theorem run_within_bounds_incomparable :
    (∃ t answers fault, (fresh .smallest fun _ _ => Float.nan).performAll
        [.addBatch [(1, 2), (2, 2), (3, 3)]] = .ok (t, answers) ∧
      answers.map Answer.fault? = [some fault] ∧ fault.cause.IsStray .smallest ∧ t.InBounds) ∧
    ∃ t, restore ⟨[(1, 2), (2, 2), (3, 3)]⟩ .smallest hamming = .ok (.ok t) := by
  have hshape (metric : Metric) : ofShape .smallest metric = .ok (fresh .smallest metric) :=
    ofShape_eq_ok.2 ⟨Shape.smallest_sound, rfl⟩
  constructor
  · obtain ⟨t, answers, hok, hbounds, hstray, -⟩ :=
      (run_within_bounds (hshape fun _ _ => Float.nan)).1 [.addBatch [(1, 2), (2, 2), (3, 3)]]
    have hfaults : (fresh .smallest fun _ _ => Float.nan).faults
        [.addBatch [(1, 2), (2, 2), (3, 3)]] = some [some
          (.batchRolledBack (.incompleteCollation 0 0 2) [(1, 2), (2, 2), (3, 3)])] := by
      decide +kernel
    obtain ⟨t', answers', hok', hanswers⟩ := faults_eq_some.1 hfaults
    obtain ⟨rfl, rfl⟩ := Prod.mk.inj (Except.ok.inj (hok'.symm.trans hok))
    obtain ⟨answer, hanswer, hfault⟩ := List.map_eq_singleton_iff.1 hanswers
    exact ⟨t', answers', _, hok, hanswers, hstray answer (by simp [hanswer]) _ hfault, hbounds⟩
  · obtain ⟨outcome, hok, -, hsome⟩ :=
      (run_within_bounds (hshape hamming)).2 ⟨[(1, 2), (2, 2), (3, 3)]⟩
    obtain ⟨t, rfl⟩ := hsome sortable_hamming
    exact ⟨t, hok⟩

end Tree

end Vantage
