/-
**How the nodes of a tree come about.**

Nodes are made and changed by placements alone. A placement serves a place, and the subtree that
stands there in the end is what its node made of the points, over the subtrees that have settled
below. So what can be shown of a place that was served, once it is known of the places below, is
true of every placement; and what a served place always has, all nodes of all reachable trees have.

Main definitions:

* `Job.Served` — a place that has been served, with what its node made of the points.

Main results:

* `settle_induction`, `place_induction` — **induction over a placement**, from the places below to
  the places that sent points to them;
* `Tree.Flushes.root_cases` — after a flush the old root stands, or one that was placed;
* `Tree.Reachable.forall_nodes` — **what placements give to nodes, every node has**.
-/

import Vantage.Proofs.Runs

set_option relaxedAutoImplicit false
set_option autoImplicit false

namespace Vantage

variable {shape : Shape} {d : Metric} {points : Slots Point}

/-! ### Places that have been served -/

namespace Job

/-- The node at a place, or a new one, took the points, and the stage says what it sends on. A node
that stays keeps its slot. -/
structure Served (shape : Shape) (d : Metric) (points : Slots Point) (job : Job)
    (i : Intake Subtree) (stage : Stage) : Prop where
  ready : job.Ready shape d points
  attempt : job.attempt shape d points = .ok i
  yields : job.Yields shape d points i stage
  slot : ∀ t ∈ job.site, i.fresh = false → stage.slot = t.slot

/-- The slot of a node that has taken points is the one that was entered for it. -/
theorem slot_of_run {job : Job} {i : Intake Subtree} {stage : Stage} {p p' : Progress}
    (h : job.Ready shape d points) (hi : job.attempt shape d points = .ok i)
    (hrun : job.run shape d points p = .ok (stage, p')) :
    stage.slot = (p.enter (job.site.map Subtree.slot) i).1 := by
  rw [run_eq h.own_occupied, hi, mapError_ok, ok_bind] at hrun
  obtain ⟨onward, -, hok⟩ := bind_eq_ok.1 hrun
  obtain ⟨rfl, -⟩ := Prod.mk.inj (Except.ok.inj hok)
  rfl

theorem served_of_run {job : Job} {stage : Stage} {p p' : Progress} (hshape : shape.Sound)
    (h : job.Ready shape d points) (hrun : job.run shape d points p = .ok (stage, p')) :
    ∃ i, job.Served shape d points i stage := by
  cases hi : job.attempt shape d points with
  | error fault =>
      rw [run_eq h.own_occupied, hi] at hrun
      cases hrun
  | ok i =>
      obtain ⟨stage', p'', -, -, hok, hy, -⟩ := run_of_attempt h hshape hi p
      obtain ⟨rfl, rfl⟩ := Prod.mk.inj (Except.ok.inj (hrun.symm.trans hok))
      refine ⟨i, h, hi, hy, fun t ht hfresh => ?_⟩
      rw [slot_of_run h hi hrun, show job.site = some t from ht]
      simp [Progress.enter, hfresh]

/-- In a round that is completed every place has been served. -/
theorem served_of_runAll {jobs : List Job} {stages : List Stage} {p p' : Progress}
    (hshape : shape.Sound) (h : ∀ job ∈ jobs, job.Ready shape d points)
    (hrun : runAll shape d points p jobs = .ok (stages, p')) :
    List.Forall₂ (fun job stage => ∃ i, job.Served shape d points i stage) jobs stages := by
  induction jobs generalizing p stages with
  | nil =>
      obtain ⟨rfl, -⟩ := Prod.mk.inj (Except.ok.inj hrun)
      exact .nil
  | cons job jobs ih =>
      obtain ⟨hjob, hjobs⟩ := List.forall_mem_cons.1 h
      obtain ⟨⟨stage, p₁⟩, hfirst, hrun⟩ := bind_eq_ok.1 hrun
      obtain ⟨⟨others, p₂⟩, hothers, hrun⟩ := bind_eq_ok.1 hrun
      obtain ⟨rfl, rfl⟩ := Prod.mk.inj (Except.ok.inj hrun)
      exact .cons (served_of_run hshape hjob hfirst) (ih hjobs hothers)

/-- The places to which a served place sends points are in order. -/
theorem Served.ready_below {job : Job} {i : Intake Subtree} {stage : Stage}
    (h : job.Served shape d points i stage) :
    ∀ next ∈ stage.jobs, next.Ready shape d points :=
  fun _ hnext => h.yields.ready h.ready hnext

/-- In a round that is completed all places below are in order. -/
theorem ready_below_of_runAll {jobs : List Job} {stages : List Stage} {p p' : Progress}
    (hshape : shape.Sound) (h : ∀ job ∈ jobs, job.Ready shape d points)
    (hrun : runAll shape d points p jobs = .ok (stages, p')) :
    ∀ next ∈ stages.flatMap Stage.jobs, next.Ready shape d points := by
  intro next hnext
  obtain ⟨stage, hstage, hnext⟩ := List.mem_flatMap.1 hnext
  obtain ⟨job, -, i, hi⟩ := exists_of_forall₂ (served_of_runAll hshape h hrun) hstage
  exact hi.ready_below next hnext

end Job

/-! ### Induction over a placement -/

section induction

variable {R : Job → Subtree → Prop}
  (hstep : ∀ job i stage below, Job.Served shape d points job i stage →
    List.Forall₂ R stage.jobs below → R job (stage.finish below))
include hstep

/-- **What holds of a served place when it holds of the places below** holds of all places. -/
theorem settle_induction (hshape : shape.Sound) {rounds : Nat} {jobs : List Job} {p p' : Progress}
    {placed : List Subtree} (hready : ∀ job ∈ jobs, job.Ready shape d points)
    (h : settle shape d points rounds p jobs = .ok (placed, p')) : List.Forall₂ R jobs placed := by
  -- induction on the rounds: the places below a round settle in the rounds that are left
  induction rounds generalizing p jobs placed with
  | zero =>
      cases jobs with
      | nil =>
          obtain ⟨rfl, -⟩ := Prod.mk.inj (Except.ok.inj h)
          exact .nil
      | cons job jobs => cases h
  | succ rounds ih =>
      cases jobs with
      | nil =>
          obtain ⟨rfl, -⟩ := Prod.mk.inj (Except.ok.inj h)
          exact .nil
      | cons job jobs =>
          obtain ⟨⟨stages, p₁⟩, hrun, h⟩ := bind_eq_ok.1 h
          obtain ⟨⟨below, p₂⟩, hbelow, h⟩ := bind_eq_ok.1 h
          obtain ⟨rfl, rfl⟩ := Prod.mk.inj (Except.ok.inj h)
          have hserved := Job.served_of_runAll hshape hready hrun
          have hnext := Job.ready_below_of_runAll hshape hready hrun
          refine Stage.forall₂_finishAll ?_ hserved (ih hnext hbelow)
          rintro job stage below ⟨i, hi⟩ hsettled
          exact hstep job i stage below hi hsettled

/-- The same for a whole batch. -/
theorem place_induction (hshape : shape.Sound) {labels : Slots Unit} {root : Option Subtree}
    {batch : List Held} {t : Subtree} {p : Progress}
    (hready : Job.Ready shape d points ⟨root, batch⟩)
    (h : place shape d points labels root batch = .ok (some t, p)) : R ⟨root, batch⟩ t := by
  obtain ⟨⟨placed, p'⟩, hsettle, h⟩ := bind_eq_ok.1 h
  obtain ⟨hhead, rfl⟩ := Prod.mk.inj (Except.ok.inj h)
  have hall := settle_induction hstep hshape (List.forall_mem_singleton.2 hready) hsettle
  obtain ⟨t', rest, hR, -, rfl⟩ := List.forall₂_cons_left_iff.1 hall
  obtain rfl := Option.some.inj hhead
  exact hR

end induction

/-! ### All nodes -/

/-- A node of the subtree that stands at a place in the end is the node of the place, or a node
that has settled below, or one that stood there before. -/
theorem Stage.mem_all_finish {job : Job} {i : Intake Subtree} {stage : Stage}
    {below : List Subtree} (h : job.Yields shape d points i stage)
    (hlength : below.length = stage.onward.length) {s : Subtree}
    (hs : s ∈ (stage.finish below).all) :
    s = stage.finish below ∨ (∃ t ∈ below, s ∈ t.all) ∨ ∃ x ∈ job.kids, s ∈ x.2.all := by
  rw [Subtree.all_eq] at hs
  rcases List.mem_cons.1 hs with rfl | hs
  · exact .inl rfl
  · obtain ⟨x, hx, hs⟩ := List.mem_flatMap.1 hs
    rcases (mem_children_finish h hlength).1 hx with hx | ⟨hx, -⟩
    · exact .inr (.inl ⟨x.2, (List.of_mem_zip hx).2, hs⟩)
    · exact .inr (.inr ⟨x, hx, hs⟩)

/-- What a served place gives to its node, a placement gives to all nodes. -/
theorem place_forall_nodes {Q : Node Nat Subtree → Prop} (hshape : shape.Sound)
    (hnode : ∀ job i stage below, Job.Served shape d points job i stage →
      below.length = stage.onward.length → (∀ t ∈ job.site, Q t.node) →
      Q (stage.finish below).node)
    {labels : Slots Unit} {root : Option Subtree} {batch : List Held} {t : Subtree} {p : Progress}
    (hready : Job.Ready shape d points ⟨root, batch⟩)
    (h : place shape d points labels root batch = .ok (some t, p))
    (hroot : ∀ old ∈ root, ∀ s ∈ old.all, Q s.node) : ∀ s ∈ t.all, Q s.node := by
  refine place_induction
    (R := fun job t => (∀ old ∈ job.site, ∀ s ∈ old.all, Q s.node) → ∀ s ∈ t.all, Q s.node)
    ?_ hshape hready h hroot
  intro job i stage below hserved hbelow hold s hs
  have hlength := Stage.length_below hbelow
  have hkids : ∀ x ∈ job.kids, ∀ s ∈ x.2.all, Q s.node := by
    intro x hx s hs
    obtain ⟨site, incoming⟩ := job
    cases site with
    | none => exact absurd hx (by simp [Job.kids])
    | some old => exact hold old rfl s (Subtree.mem_all_of_child hx hs)
  rcases Stage.mem_all_finish hserved.yields hlength hs with rfl | ⟨t, ht, hs⟩ | ⟨x, hx, hs⟩
  · exact hnode job i stage below hserved hlength fun old hsite =>
      hold old hsite old old.mem_all_self
  · obtain ⟨next, hnext, hR⟩ := exists_of_forall₂ hbelow ht
    obtain ⟨x, -, rfl⟩ := hserved.yields.mem_jobs hnext
    exact hR (fun old hsite => hkids _ (Keyed.mem_of_get? hsite)) s hs
  · exact hkids x hx s hs

/-! ### Flushes and runs -/

namespace Tree

variable {t t' : Tree} {outcome : Except Fault Unit}

/-- The batch of a sound tree is in order for its root. -/
theorem Sound.ready_batch (h : t.Sound) (hne : t.batch ≠ []) :
    Job.Ready t.shape t.metric t.swept.points ⟨t.root, t.batch⟩ :=
  Vantage.ready_batch hne (fun _ hx => heldAt_swept h hx) (sound_root_swept h) (holds_swept h)

/-- After a flush the old root stands, or one that was placed. -/
theorem Flushes.root_cases (hf : t.Flushes outcome t') (h : t.Sound) :
    t'.root = t.root ∨ ∃ root p, t.batch ≠ [] ∧ t'.root = some root ∧
      place t.shape t.metric t.swept.points t.labels t.root t.batch = .ok (some root, p) := by
  cases hf with
  | rollsBack fault hok hne hsound hb => exact .inl hb.root
  | commits hok hsound hc =>
      rw [flush_eq h] at hok
      by_cases hempty : t.batch = []
      · rw [if_pos (by simpa using hempty)] at hok
        obtain ⟨rfl, -⟩ := Prod.mk.inj (Except.ok.inj hok)
        exact .inl rfl
      · rw [if_neg (by simpa using hempty)] at hok
        rcases place_batch_cases h hempty with ⟨fault, created, hplace⟩ |
          ⟨root, p, minted, gone, dead, hplace, -⟩
        · rw [hplace] at hok
          obtain ⟨t'', -, hok⟩ := bind_eq_ok.1 hok
          cases hok
        · rw [hplace] at hok
          obtain ⟨rfl, -⟩ := Prod.mk.inj (Except.ok.inj hok)
          exact .inr ⟨root, p, hempty, rfl, hplace⟩

/-- After an operation the old root stands, or none, or one that was placed. -/
theorem Performs.root_cases {op : Op} {answer : Answer} (hp : t.Performs op t' answer)
    (h : t.Sound) : t'.root = t.root ∨ t'.root = none ∨
      ∃ (t₁ : Tree) (root : Subtree) (p : Progress), t₁.Sound ∧ t₁.shape = t.shape ∧
        t₁.metric = t.metric ∧ t₁.root = t.root ∧ t₁.batch ≠ [] ∧ t'.root = some root ∧
        place t₁.shape t₁.metric t₁.swept.points t₁.labels t₁.root t₁.batch =
          .ok (some root, p) := by
  cases hp with
  | addWaits hr _ => exact .inl hr.root
  | addFlushes hr _ hf =>
      rcases hf.root_cases (hr.sound h) with hsame | ⟨root, p, hne, hroot, hplace⟩
      · exact .inl (hsame.trans hr.root)
      · exact .inr (.inr ⟨_, root, p, hr.sound h, hr.shape, hr.metric, hr.root, hne, hroot, hplace⟩)
  | addBatch hr hf =>
      rcases hf.root_cases (hr.sound h) with hsame | ⟨root, p, hne, hroot, hplace⟩
      · exact .inl (hsame.trans hr.root)
      · exact .inr (.inr ⟨_, root, p, hr.sound h, hr.shape, hr.metric, hr.root, hne, hroot, hplace⟩)
  | sync hf =>
      rcases hf.root_cases h with hsame | ⟨root, p, hne, hroot, hplace⟩
      · exact .inl hsame
      · exact .inr (.inr ⟨t, root, p, h, rfl, rfl, rfl, hne, hroot, hplace⟩)
  | delete hd _ => exact .inl hd.root
  | clear => exact .inr (.inl rfl)
  | lookUp | snapshot | search => exact .inl rfl

/-- **What placements give to nodes, every node of a reachable tree has.** -/
theorem Reachable.forall_nodes {metric : Metric} {Q : Node Nat Subtree → Prop}
    (hnode : ∀ points job i stage below, Job.Served shape metric points job i stage →
      below.length = stage.onward.length → (∀ t ∈ job.site, Q t.node) →
      Q (stage.finish below).node)
    (h : Reachable shape metric t) : ∀ root ∈ t.root, ∀ s ∈ root.all, Q s.node := by
  induction h with
  | fresh hshape => exact fun root hroot => absurd hroot (by simp [Tree.fresh])
  | @step t t' op answer h hop ih =>
      obtain ⟨hsound, rfl, rfl⟩ := h.sound
      rcases (hsound.performs hop).root_cases hsound with hroot | hroot |
        ⟨t₁, root, p, hsound₁, hshape₁, hmetric₁, hroot₁, hne, hroot, hplace⟩
      · rwa [hroot]
      · rw [hroot]
        exact fun root hnone => absurd hnone (by simp)
      · have hready := hsound₁.ready_batch hne
        rw [hshape₁, hmetric₁] at hready hplace
        intro root' hroot'
        obtain rfl := Option.some.inj (hroot.symm.trans hroot')
        exact place_forall_nodes hsound.shape (hnode t₁.swept.points) hready hplace (hroot₁ ▸ ih)

end Tree

end Vantage
