/-
**Placing a batch in a store of nodes is placing it among values.**

Place by place and round by round, the same comes of both placements. What makes it so is that the
trees that stand at the places of a round are apart in the store: a node that is served is changed,
and the node above it is linked to what has come of it, but everything else lies there as before. So
the points that are sent on wait for the places below as they do among values; and when the last
round is over, the new tree is laid out in the store.

Main definitions:

* `Work.Awaits` — points wait for several places, which are apart;
* `Work.StagesAll`, `Work.SettlesAll` — what has been made of them after a round, and in the end.

Main results:

* `Placing.follows_serveAll` — **one round**;
* `Work.StagesAll.awaits_below` — points wait for the places below a round;
* `Work.SettlesAll.of_round` — a round, and what comes of the places below, put together;
* `Placing.follows_settle`, `Placing.follows_place` — **all rounds, and a whole batch**.
-/

import Vantage.Proofs.LinkedServing
import Vantage.Proofs.Rounds

set_option relaxedAutoImplicit false
set_option autoImplicit false

namespace Vantage

variable {shape : Shape} {d : Metric} {points : Slots Point}

/-! ### One round -/

theorem mem_elim_nil {α β : Type} {o : Option α} {f : α → List β} {b : β} :
    b ∈ o.elim [] f ↔ ∃ a, o = some a ∧ b ∈ f a := by
  cases o <;> simp

/-- What holds of the pairs of two lists holds if it follows for their members. -/
theorem forall₂_imp_mem {α β : Type} {R S : α → β → Prop} {l₁ : List α} {l₂ : List β}
    (h : List.Forall₂ R l₁ l₂) (himp : ∀ a ∈ l₁, ∀ b ∈ l₂, R a b → S a b) :
    List.Forall₂ S l₁ l₂ := by
  induction h with
  | nil => exact .nil
  | cons hab hrest ih =>
      refine .cons (himp _ List.mem_cons_self _ List.mem_cons_self hab) (ih fun a ha b hb => ?_)
      exact himp a (List.mem_cons_of_mem _ ha) b (List.mem_cons_of_mem _ hb)

namespace Work

variable {w w' : Work} {pending : List Pending} {jobs : List Job} {stages : List Stage}
  {p' : Progress}

/-- Points wait for different places, of different trees, and no place is one of their nodes. -/
structure Awaits (w : Work) (pending : List Pending) (jobs : List Job) : Prop where
  each : List.Forall₂ w.Waits pending jobs
  sites : (pending.map Pending.site).Nodup
  slots : (jobs.flatMap Job.slots).Nodup
  above : ∀ q ∈ pending, ∀ parent, q.site.parent? = some parent →
    parent ∉ jobs.flatMap Job.slots

/-- What a round in the store has made of several places. -/
structure StagesAll (w w' : Work) (points : Slots Point) (p' : Progress) (pending : List Pending)
    (jobs : List Job) (stages : List Stage) : Prop where
  tracks : w'.Tracks points p'
  puts : w.Puts w' (jobs.flatMap Job.top)
    ((pending.map Pending.site).zip (stages.map Stage.slot))
  cells : ∀ stage ∈ stages, w'.nodes.get? stage.slot = some stage.cell
  /-- The nodes keep their slots, or take free ones. -/
  slot : ∀ stage ∈ stages, stage.slot ∈ jobs.flatMap Job.top ∨ ¬ w.nodes.Occupied stage.slot

/-- The slots of a tree that stands at a place are occupied. -/
theorem Waits.occupied {q : Pending} {job : Job} (h : w.Waits q job) {slot : Nat}
    (hslot : slot ∈ job.slots) : w.nodes.Occupied slot := by
  obtain ⟨t, ht, hslot⟩ := mem_elim_nil.1 hslot
  exact Slots.occupied_iff.2 ((h.shows t ht).exists_get? hslot)

theorem Awaits.occupied (h : w.Awaits pending jobs) {slot : Nat}
    (hslot : slot ∈ jobs.flatMap Job.slots) : w.nodes.Occupied slot := by
  obtain ⟨job, hjob, hslot⟩ := List.mem_flatMap.1 hslot
  obtain ⟨q, -, hq⟩ := exists_of_forall₂ h.each hjob
  exact hq.occupied hslot

/-- **What waits for other places** waits for them still, once nodes have been put in places. -/
theorem Waits.of_puts {q : Pending} {job : Job} {spare : List Nat} {placed : List (Site × Nat)}
    (h : w.Waits q job) (hputs : w.Puts w' spare placed)
    (hparent : ∀ parent, q.site.parent? = some parent → parent ∉ spare)
    (hsite : q.site ∉ placed.map Prod.fst) (hslots : ∀ slot ∈ job.slots, slot ∉ spare)
    (hplaced : ∀ x ∈ placed, ∀ slot ∈ job.slots, x.1.parent? ≠ some slot) :
    w'.Waits q job := by
  refine ⟨h.points, hputs.opens h.opens hparent hsite, fun t ht => ?_⟩
  have hjob : job.slots = t.slots := by
    rw [Job.slots, Job.contents, show job.site = some t from ht]
    rfl
  rw [hjob] at hslots hplaced
  exact hputs.shows (h.shows t ht) hslots hplaced

variable {q : Pending} {job : Job} {stage : Stage} {w₁ : Work} {p₁ : Progress}

/-- When a place has been served, points wait for the others still. -/
theorem Awaits.rest (h : w.Awaits (q :: pending) (job :: jobs))
    (hstages : w.Stages w₁ points p₁ q.site job stage) : w₁.Awaits pending jobs := by
  obtain ⟨-, hrest⟩ := List.forall₂_cons.1 h.each
  obtain ⟨hsite, hsites⟩ := List.nodup_cons.1 h.sites
  have hslots := h.slots
  rw [List.flatMap_cons, List.nodup_append'] at hslots
  obtain ⟨-, hslots, hdisjoint⟩ := hslots
  have habove : ∀ q' ∈ q :: pending, ∀ parent, q'.site.parent? = some parent →
      parent ∉ job.slots ∧ parent ∉ jobs.flatMap Job.slots := fun q' hq' parent hparent => by
    have hnot := h.above q' hq' parent hparent
    rwa [List.flatMap_cons, List.mem_append, not_or] at hnot
  refine ⟨forall₂_imp_mem hrest fun q' hq' job' hjob' hwaits => ?_, hsites, hslots,
    fun q' hq' parent hparent => (habove q' (List.mem_cons_of_mem _ hq') parent hparent).2⟩
  refine hwaits.of_puts hstages.puts (fun parent hparent htop => ?_) ?_
    (fun slot hslot htop => ?_) ?_
  · exact (habove q' (List.mem_cons_of_mem _ hq') parent hparent).1 (Job.mem_slots_of_top htop)
  · rw [List.map_singleton, List.mem_singleton]
    intro heq
    exact hsite (List.mem_map.2 ⟨q', hq', heq⟩)
  · exact hdisjoint (Job.mem_slots_of_top htop) (List.mem_flatMap.2 ⟨job', hjob', hslot⟩)
  · intro x hx slot hslot hparent
    obtain rfl := List.mem_singleton.1 hx
    exact (habove q List.mem_cons_self slot hparent).2 (List.mem_flatMap.2 ⟨job', hjob', hslot⟩)

/-- The store is in order when a place has been served. -/
theorem Stages.exists_holds {p : Progress} {l : List Nat} {site : Site}
    (h : w.Stages w₁ points p₁ site job stage) (hshape : shape.Sound)
    (hjob : job.Ready shape d points) (hrun : job.run shape d points p = .ok (stage, p₁))
    (htracks : w.Tracks points p) (hl : w.nodes.Holds l) : ∃ l₁, w₁.nodes.Holds l₁ := by
  rcases Job.run_cases hjob hshape p with ⟨fault, created, herror⟩ |
    ⟨i, stage', p', minted, gone, hok, -, hadv, -⟩
  · exact absurd (hrun.symm.trans herror) (by simp)
  · obtain ⟨rfl, rfl⟩ := Prod.mk.inj (Except.ok.inj (hrun.symm.trans hok))
    rw [← Slots.holds_units, htracks.labels] at hl
    refine ⟨minted ++ l, Slots.holds_units.1 ?_⟩
    rw [h.tracks.labels]
    exact hadv.labels l hl

/-- One place in front of a round. -/
theorem StagesAll.cons (h : w.Awaits (q :: pending) (job :: jobs))
    (hstages : w.Stages w₁ points p₁ q.site job stage)
    (hrest : w₁.StagesAll w' points p' pending jobs stages) :
    w.StagesAll w' points p' (q :: pending) (job :: jobs) (stage :: stages) := by
  obtain ⟨hq, hqs⟩ := List.forall₂_cons.1 h.each
  have hslots := h.slots
  rw [List.flatMap_cons, List.nodup_append'] at hslots
  obtain ⟨-, -, hdisjoint⟩ := hslots
  have htops : ∀ slot ∈ jobs.flatMap Job.top, slot ∈ jobs.flatMap Job.slots := fun slot hslot => by
    obtain ⟨job', hjob', htop⟩ := List.mem_flatMap.1 hslot
    exact List.mem_flatMap.2 ⟨job', hjob', Job.mem_slots_of_top htop⟩
  -- the node of the first place is not touched when the others are served
  have hfirst : w'.nodes.get? stage.slot = some stage.cell := by
    refine hrest.puts.get?_eq (fun htop => ?_) hstages.cell fun x hx hparent => ?_
    · rcases hstages.slot with hslot | hfree
      · exact hdisjoint (Job.mem_slots_of_top hslot) (htops _ htop)
      · refine hfree (h.occupied ?_)
        rw [List.flatMap_cons]
        exact List.mem_append_right _ (htops _ htop)
    · obtain ⟨q', hq', hsite⟩ := List.mem_map.1 (List.of_mem_zip hx).1
      rw [← hsite] at hparent
      rcases hstages.slot with hslot | hfree
      · refine h.above q' (List.mem_cons_of_mem _ hq') _ hparent ?_
        rw [List.flatMap_cons]
        exact List.mem_append_left _ (Job.mem_slots_of_top hslot)
      · obtain ⟨job', -, hwaits⟩ := exists_of_forall₂ hqs.flip hq'
        exact hfree (Slots.occupied_iff.2 (hwaits.opens.exists_above hparent))
  refine ⟨hrest.tracks, hstages.puts.trans hrest.puts, ?_, ?_⟩
  · rintro stage' (_ | ⟨_, hstage'⟩)
    · exact hfirst
    · exact hrest.cells stage' hstage'
  · intro stage' hstage'
    rw [List.flatMap_cons, List.mem_append]
    rcases List.mem_cons.1 hstage' with rfl | hstage'
    · exact hstages.slot.imp_left .inl
    · by_cases htop : stage'.slot ∈ job.top
      · exact .inl (.inl htop)
      · refine (hrest.slot stage' hstage').imp .inr fun hfree hocc => hfree ?_
        obtain ⟨cell, hcell⟩ := Slots.occupied_iff.1 hocc
        exact Slots.occupied_iff.2 ⟨_, hstages.puts.nodes _ cell htop hcell⟩

end Work

namespace Placing

variable {w : Work}

/-- **One round**: both placements come to the same. -/
theorem follows_serveAll (hshape : shape.Sound) {pending : List Pending} {jobs : List Job}
    {p : Progress} {l : List Nat} (hready : ∀ job ∈ jobs, job.Ready shape d points)
    (hlive : ∀ job ∈ jobs, ∀ x ∈ job.points, x.live = true) (hl : w.nodes.Holds l)
    (htracks : w.Tracks points p) (hw : w.Awaits pending jobs) :
    (∃ fault created w', Job.runAll shape d points p jobs = .error (.refused fault created) ∧
      serveAll shape d pending w = .ok (.error fault, w') ∧
      w'.Halts points created) ∨
    ∃ stages p' w', Job.runAll shape d points p jobs = .ok (stages, p') ∧
      serveAll shape d pending w = .ok (.ok (stages.flatMap Stage.pending), w') ∧
      w.StagesAll w' points p' pending jobs stages := by
  -- induction on the places; those that are left wait for what the first has made of the store
  induction jobs generalizing w p pending l with
  | nil =>
      obtain rfl := List.forall₂_nil_right_iff.1 hw.each
      exact .inr ⟨[], p, w, rfl, rfl, htracks, .refl w, by simp, by simp⟩
  | cons job jobs ih =>
      obtain ⟨q, qs, hq, hqs, rfl⟩ := List.forall₂_cons_right_iff.1 hw.each
      obtain ⟨hjob, hjobs⟩ := List.forall_mem_cons.1 hready
      obtain ⟨hlive₁, hlives⟩ := List.forall_mem_cons.1 hlive
      have habove : ∀ parent, q.site.parent? = some parent → parent ∉ job.top := by
        intro parent hparent htop
        refine hw.above q List.mem_cons_self parent hparent ?_
        rw [List.flatMap_cons]
        exact List.mem_append_left _ (Job.mem_slots_of_top htop)
      rcases follows_serve hshape hjob hlive₁ hl htracks hq habove with
        ⟨fault, w', hrun, hserve, hhalts⟩ | ⟨stage, p₁, w₁, hrun, hserve, hstages⟩
      · refine .inl ⟨fault, p.created, w', by simp [Job.runAll, hrun], ?_, hhalts⟩
        rw [serveAll, bind_of_error hserve]
      · obtain ⟨l₁, hl₁⟩ := hstages.exists_holds hshape hjob hrun htracks hl
        rcases ih hjobs hlives hl₁ hstages.tracks (hw.rest hstages) with
          ⟨fault, created, w', hrest, hserves, hhalts⟩ |
          ⟨stages, p', w', hrest, hserves, hstages'⟩
        · refine .inl ⟨fault, created, w', by simp [Job.runAll, hrun, hrest], ?_, hhalts⟩
          rw [serveAll, bind_of_ok hserve, bind_of_error hserves]
        · refine .inr ⟨stage :: stages, p', w', by simp [Job.runAll, hrun, hrest], ?_,
            .cons hw hstages hstages'⟩
          rw [serveAll, bind_of_ok hserve, bind_of_ok hserves]
          rfl

end Placing

/-! ### The places below a round -/

section below

variable {job : Job} {i : Intake Subtree} {stage : Stage} {jobs : List Job} {stages : List Stage}

theorem Job.perm_slots (jobs : List Job) :
    (jobs.flatMap Job.top ++ jobs.flatMap Job.below).Perm (jobs.flatMap Job.slots) :=
  (List.flatMap_append_perm jobs _ _).trans
    (.of_eq (List.flatMap_congr fun job _ => (Job.slots_eq job).symm))

/-- A tree that stands at a place below a node is one of its children. -/
theorem Job.Yields.exists_kid (h : job.Yields shape d points i stage) {slot : Nat}
    (hslot : slot ∈ stage.jobs.flatMap Job.slots) :
    ∃ x ∈ job.kids, x.1 ∈ stage.onward.map Prod.fst ∧ slot ∈ x.2.slots := by
  rw [show stage.jobs.flatMap Job.slots = _ from Stage.contents_jobs h] at hslot
  obtain ⟨k, hk, hslot⟩ := List.mem_flatMap.1 hslot
  obtain ⟨t, ht, hslot⟩ := mem_elim_nil.1 hslot
  exact ⟨(k, t), Keyed.mem_of_get? ht, hk, hslot⟩

theorem Job.Yields.mem_below (h : job.Yields shape d points i stage) {slot : Nat}
    (hslot : slot ∈ stage.jobs.flatMap Job.slots) : slot ∈ job.below := by
  obtain ⟨x, hx, -, hslot⟩ := h.exists_kid hslot
  exact List.mem_flatMap.2 ⟨x, hx, hslot⟩

/-- Different children have different slots. -/
theorem Job.eq_of_mem_slots (hnodup : job.below.Nodup) {x y : Nat × Subtree} (hx : x ∈ job.kids)
    (hy : y ∈ job.kids) {slot : Nat} (hslot : slot ∈ x.2.slots) (hslot' : slot ∈ y.2.slots) :
    x = y := by
  obtain ⟨-, hpairs⟩ := List.nodup_flatMap.1 hnodup
  have hsymm : Std.Symm fun x y : Nat × Subtree => x.2.slots.Disjoint y.2.slots :=
    ⟨fun _ _ h => h.symm⟩
  by_contra hne
  exact hpairs.forall hx hy hne hslot hslot'

/-- The places below a node are those of different trees. -/
theorem Job.Yields.nodup_slots (h : job.Yields shape d points i stage)
    (hnodup : job.below.Nodup) : (stage.jobs.flatMap Job.slots).Nodup := by
  rw [show stage.jobs.flatMap Job.slots = _ from Stage.contents_jobs h, List.nodup_flatMap]
  refine ⟨fun k _ => ?_, (Stage.nodup_onward h).imp fun {k k'} hne slot hslot hslot' => ?_⟩
  · cases hchild : Keyed.get? k job.kids with
    | none => exact List.nodup_nil
    | some t => exact (List.nodup_flatMap.1 hnodup).1 _ (Keyed.mem_of_get? hchild)
  · obtain ⟨t, ht, hslot⟩ := mem_elim_nil.1 hslot
    obtain ⟨t', ht', hslot'⟩ := mem_elim_nil.1 hslot'
    exact hne (congrArg Prod.fst (Job.eq_of_mem_slots hnodup (Keyed.mem_of_get? ht)
      (Keyed.mem_of_get? ht') hslot hslot'))

variable (h : List.Forall₂ (fun job stage => ∃ i, job.Yields shape d points i stage) jobs stages)
include h

theorem Stage.mem_below {slot : Nat}
    (hslot : slot ∈ (stages.flatMap Stage.jobs).flatMap Job.slots) :
    slot ∈ jobs.flatMap Job.below := by
  rw [List.flatMap_assoc] at hslot
  obtain ⟨stage, hstage, hslot⟩ := List.mem_flatMap.1 hslot
  obtain ⟨job, hjob, i, hy⟩ := exists_of_forall₂ h hstage
  exact List.mem_flatMap.2 ⟨job, hjob, hy.mem_below hslot⟩

/-- The places below a round are those of different trees. -/
theorem Stage.nodup_slots (hnodup : (jobs.flatMap Job.below).Nodup) :
    ((stages.flatMap Stage.jobs).flatMap Job.slots).Nodup := by
  induction h with
  | nil => exact List.nodup_nil
  | @cons job stage jobs stages hy hrest ih =>
      obtain ⟨i, hy⟩ := hy
      rw [List.flatMap_cons, List.nodup_append'] at hnodup
      obtain ⟨hfirst, hothers, hdisjoint⟩ := hnodup
      rw [List.flatMap_cons, List.flatMap_append, List.nodup_append']
      exact ⟨hy.nodup_slots hfirst, ih hothers, fun slot hslot hslot' =>
        hdisjoint (hy.mem_below hslot) (Stage.mem_below hrest hslot')⟩

end below

/-- Lists that are put together pair by pair. -/
theorem forall₂_flatMap {α β γ : Type} {R : α → β → Prop} {l : List γ} {f : γ → List α}
    {g : γ → List β} (h : ∀ c ∈ l, List.Forall₂ R (f c) (g c)) :
    List.Forall₂ R (l.flatMap f) (l.flatMap g) := by
  induction l with
  | nil => exact .nil
  | cons c l ih =>
      obtain ⟨hc, hl⟩ := List.forall_mem_cons.1 h
      rw [List.flatMap_cons, List.flatMap_cons]
      exact List.rel_append hc (ih hl)

namespace Work

variable {w w' : Work} {pending : List Pending} {jobs : List Job} {stages : List Stage}
  {p' : Progress}

theorem Waits.shows_kid {q : Pending} {job : Job} (h : w.Waits q job) {x : Nat × Subtree}
    (hx : x ∈ job.kids) : w.nodes.Shows x.2 := by
  obtain ⟨t, ht, hx⟩ := mem_elim_nil.1 hx
  exact (h.shows t ht).child hx

namespace Awaits

theorem nodup_parts (h : w.Awaits pending jobs) :
    (jobs.flatMap Job.top ++ jobs.flatMap Job.below).Nodup :=
  (Job.perm_slots jobs).nodup_iff.2 h.slots

theorem occupied_below (h : w.Awaits pending jobs) {slot : Nat}
    (hslot : slot ∈ jobs.flatMap Job.below) : w.nodes.Occupied slot :=
  h.occupied ((Job.perm_slots jobs).mem_iff.1 (List.mem_append_right _ hslot))

theorem not_above_below (h : w.Awaits pending jobs) {q : Pending} (hq : q ∈ pending) {slot : Nat}
    (hslot : slot ∈ jobs.flatMap Job.below) : q.site.parent? ≠ some slot := fun hparent =>
  h.above q hq slot hparent ((Job.perm_slots jobs).mem_iff.1 (List.mem_append_right _ hslot))

end Awaits

namespace StagesAll

variable (h : w.StagesAll w' points p' pending jobs stages) (hw : w.Awaits pending jobs)
include h hw

/-- No node that was served lies below a place. -/
theorem not_mem_below {stage : Stage} (hstage : stage ∈ stages) :
    stage.slot ∉ jobs.flatMap Job.below := by
  intro hslot
  rcases h.slot stage hstage with htop | hfree
  · exact List.disjoint_of_nodup_append hw.nodup_parts htop hslot
  · exact hfree (hw.occupied_below hslot)

/-- What stood below a place stands there still. -/
theorem shows_kid {job : Job} (hjob : job ∈ jobs) {x : Nat × Subtree} (hx : x ∈ job.kids) :
    w'.nodes.Shows x.2 := by
  obtain ⟨q, -, hq⟩ := exists_of_forall₂ hw.each hjob
  have hbelow : ∀ slot ∈ x.2.slots, slot ∈ jobs.flatMap Job.below := fun slot hslot =>
    List.mem_flatMap.2 ⟨job, hjob, List.mem_flatMap.2 ⟨x, hx, hslot⟩⟩
  refine h.puts.shows (hq.shows_kid hx) (fun slot hslot htop => ?_) fun y hy slot hslot => ?_
  · exact List.disjoint_of_nodup_append hw.nodup_parts htop (hbelow slot hslot)
  · obtain ⟨q', hq', hsite⟩ := List.mem_map.1 (List.of_mem_zip hy).1
    rw [← hsite]
    exact hw.not_above_below hq' (hbelow slot hslot)

/-- **After a round** the points that were sent on wait for the places below. -/
theorem awaits_below
    (hyields : List.Forall₂ (fun job stage => ∃ i, job.Yields shape d points i stage) jobs stages)
    (hslots : (stages.map Stage.slot).Nodup) :
    w'.Awaits (stages.flatMap Stage.pending) (stages.flatMap Stage.jobs) := by
  have hbelow := hw.nodup_parts.of_append_right
  refine ⟨forall₂_flatMap fun stage hstage => ?_, ?_, Stage.nodup_slots hyields hbelow, ?_⟩
  · obtain ⟨job, hjob, i, hy⟩ := exists_of_forall₂ hyields hstage
    rw [Stage.pending, Stage.jobs, List.forall₂_map_left_iff, List.forall₂_map_right_iff,
      List.forall₂_same]
    intro x hx
    -- what stands at the place is the child of the index
    have hsite : x.2.site = Keyed.get? x.1 job.kids := by
      have hx' := hx
      rw [hy.onward] at hx'
      obtain ⟨y, -, rfl⟩ := List.mem_map.1 hx'
      rw [← hy.intake.children]
    have hchild : Keyed.get? x.1 stage.cell.children = x.2.site.map Subtree.slot := by
      rw [Stage.cell, Node.children_mapChildren, Keyed.get?_map, Stage.children_eq hy, hsite]
    refine ⟨rfl, ?_, fun t ht => ?_⟩
    · rw [← hchild]
      refine .child (h.cells stage hstage) ?_ ?_
      · rw [Stage.cell, Node.fanout_mapChildren]
        exact Stage.lt_fanout hy hx
      · rw [Stage.cell, Node.children_mapChildren, Stage.children_eq hy]
        exact (Stage.ascending_kids hy).map _
    · rw [hsite] at ht
      exact h.shows_kid hw hjob (Keyed.mem_of_get? ht)
  · -- different places: of different nodes, or of one node under different indices
    rw [List.map_flatMap, List.nodup_flatMap]
    refine ⟨fun stage hstage => ?_, (List.pairwise_map.1 hslots).imp fun hne => ?_⟩
    · obtain ⟨job, -, i, hy⟩ := exists_of_forall₂ hyields hstage
      have hkeys : stage.pending.map Pending.site =
          (stage.onward.map Prod.fst).map (Site.child stage.slot) := by
        rw [Stage.pending, List.map_map, List.map_map]
        rfl
      rw [hkeys]
      exact (Stage.nodup_onward hy).map fun k l hkl => (Site.child.inj hkl).2
    · intro site hsite hsite'
      obtain ⟨q, hq, rfl⟩ := List.mem_map.1 hsite
      obtain ⟨q', hq', heq⟩ := List.mem_map.1 hsite'
      obtain ⟨x, -, rfl⟩ := List.mem_map.1 hq
      obtain ⟨x', -, rfl⟩ := List.mem_map.1 hq'
      exact hne (Site.child.inj heq).1.symm
  · intro q hq parent hparent hslot
    obtain ⟨stage, hstage, hq⟩ := List.mem_flatMap.1 hq
    obtain ⟨x, -, rfl⟩ := List.mem_map.1 hq
    obtain rfl := Option.some.inj hparent
    exact h.not_mem_below hw hstage (Stage.mem_below hyields hslot)

end StagesAll

end Work

/-! ### All rounds -/

namespace Stage

variable {stage : Stage} {stages : List Stage} {below : List Subtree}

/-- The links to what has settled below a node, as they are made in a store. -/
theorem linksAt_pending (stage : Stage) (below : List Subtree) :
    linksAt ((stage.pending.map Pending.site).zip (below.map Subtree.slot)) stage.slot =
      (stage.links below).map fun x => (x.1, x.2.slot) := by
  rw [links, pending, List.map_map, List.zip_map, linksAt, List.flatMap_map,
    ← List.map_id below, List.zip_map, List.map_map, List.map_id, List.map_eq_flatMap]
  refine List.flatMap_congr fun x _ => ?_
  exact if_pos rfl

/-- The finished subtree, as its root lies in a store. -/
theorem cell_finish (stage : Stage) (below : List Subtree) :
    (stage.finish below).cell =
      stage.cell.relink (linksAt ((stage.pending.map Pending.site).zip (below.map Subtree.slot))
        stage.slot) := by
  rw [linksAt_pending, cell, ← Node.mapChildren_relink]
  rfl

theorem map_slot_finishAll (stages : List Stage) (below : List Subtree) :
    (finishAll stages below).map Subtree.slot = stages.map Stage.slot := by
  induction stages generalizing below with
  | nil => rfl
  | cons stage rest ih =>
      rw [finishAll, List.map_cons, ih, List.map_cons]
      rfl

theorem parent?_of_mem_pending {q : Pending} (hq : q ∈ stage.pending) :
    q.site.parent? = some stage.slot := by
  obtain ⟨x, -, rfl⟩ := List.mem_map.1 hq
  rfl

/-- No link is made at a node to which none of the places belongs. -/
theorem linksAt_eq_nil (below : List Nat) {slot : Nat} (hslot : slot ∉ stages.map Stage.slot) :
    linksAt (((stages.flatMap Stage.pending).map Pending.site).zip below) slot = [] := by
  refine Vantage.linksAt_eq_nil fun x hx hparent => hslot ?_
  obtain ⟨q, hq, hsite⟩ := List.mem_map.1 (List.of_mem_zip hx).1
  obtain ⟨stage, hstage, hq⟩ := List.mem_flatMap.1 hq
  rw [← hsite, parent?_of_mem_pending hq] at hparent
  exact Option.some.inj hparent ▸ List.mem_map_of_mem hstage

/-- The places below a round are those below its first node, and the others. -/
theorem zip_pending_cons (hlength : (below.take stage.onward.length).length = stage.onward.length) :
    (((stage :: stages).flatMap Stage.pending).map Pending.site).zip (below.map Subtree.slot) =
      (stage.pending.map Pending.site).zip
          ((below.take stage.onward.length).map Subtree.slot) ++
        ((stages.flatMap Stage.pending).map Pending.site).zip
          ((below.drop stage.onward.length).map Subtree.slot) := by
  have hpending : (stage.pending.map Pending.site).length =
      ((below.take stage.onward.length).map Subtree.slot).length := by
    rw [List.length_map, List.length_map, hlength, pending, List.length_map]
  conv_lhs => rw [← List.take_append_drop stage.onward.length below]
  rw [List.flatMap_cons, List.map_append, List.map_append, List.zip_append hpending]

theorem mem_slots_jobs_cons {slot : Nat} :
    slot ∈ ((stage :: stages).flatMap Stage.jobs).flatMap Job.slots ↔
      slot ∈ stage.jobs.flatMap Job.slots ∨
        slot ∈ (stages.flatMap Stage.jobs).flatMap Job.slots := by
  rw [List.flatMap_cons, List.flatMap_append, List.mem_append]

/-- A child of a finished subtree has settled below it, or it stood there before and is apart from
the places below. -/
theorem disjoint_of_mem_finish {job : Job} {i : Intake Subtree}
    (hy : job.Yields shape d points i stage) (hlength : below.length = stage.onward.length)
    (hnodup : job.below.Nodup) {x : Nat × Subtree} (hx : x ∈ (stage.finish below).children) :
    x.2 ∈ below ∨
      (x ∈ job.kids ∧ x.2.slots.Disjoint (stage.jobs.flatMap Job.slots)) := by
  rcases (mem_children_finish hy hlength).1 hx with hx | ⟨hx, hkey⟩
  · exact .inl (List.of_mem_zip hx).2
  · refine .inr ⟨hx, fun slot hslot hslot' => ?_⟩
    obtain ⟨y, hy', hykey, hyslot⟩ := hy.exists_kid hslot'
    obtain rfl := Job.eq_of_mem_slots hnodup hx hy' hslot hyslot
    rw [map_fst_links hlength] at hkey
    exact hkey hykey

/-- **The subtrees that are finished after a round**, each from a node that was served: its root is
linked to what has settled below, and any other child stood there before and is apart from all
places below. -/
theorem exists_of_mem_finishAll {jobs : List Job}
    (h : List.Forall₂ (fun job stage => ∃ i, job.Yields shape d points i stage) jobs stages)
    (hlength : below.length = (stages.flatMap Stage.jobs).length)
    (hslots : (stages.map Stage.slot).Nodup) (hnodup : (jobs.flatMap Job.below).Nodup)
    {t : Subtree} (ht : t ∈ finishAll stages below) :
    ∃ stage ∈ stages, t.slot = stage.slot ∧
      t.cell = stage.cell.relink (linksAt (((stages.flatMap Stage.pending).map Pending.site).zip
        (below.map Subtree.slot)) stage.slot) ∧
      ∀ x ∈ t.children, x.2 ∈ below ∨ ∃ job ∈ jobs, x ∈ job.kids ∧
        x.2.slots.Disjoint ((stages.flatMap Stage.jobs).flatMap Job.slots) := by
  -- induction on the places served; each takes as many finished subtrees as it sent points to
  induction h generalizing below with
  | nil => exact absurd ht List.not_mem_nil
  | @cons job stage jobs stages hy hrest ih =>
      obtain ⟨i, hy⟩ := hy
      obtain ⟨hslot, hothers⟩ := List.nodup_cons.1 hslots
      rw [List.flatMap_cons, List.nodup_append'] at hnodup
      obtain ⟨hfirst, hlast, hdisjoint⟩ := hnodup
      have hjobs : stage.jobs.length = stage.onward.length := List.length_map _
      rw [List.flatMap_cons, List.length_append, hjobs] at hlength
      have htake : (below.take stage.onward.length).length = stage.onward.length := by
        rw [List.length_take]
        omega
      have hdrop : (below.drop stage.onward.length).length =
          (stages.flatMap Stage.jobs).length := by
        rw [List.length_drop]
        omega
      rw [zip_pending_cons htake]
      rw [finishAll] at ht
      rcases List.mem_cons.1 ht with rfl | ht
      · refine ⟨stage, List.mem_cons_self, rfl, ?_, fun x hx => ?_⟩
        · rw [linksAt_append, linksAt_eq_nil _ hslot, List.append_nil, cell_finish]
        · rcases disjoint_of_mem_finish hy htake hfirst hx with hx | ⟨hx, hapart⟩
          · exact .inl (List.mem_of_mem_take hx)
          · refine .inr ⟨job, List.mem_cons_self, hx, fun slot hx' hslot' => ?_⟩
            rcases mem_slots_jobs_cons.1 hslot' with hslot' | hslot'
            · exact hapart hx' hslot'
            · exact hdisjoint (List.mem_flatMap.2 ⟨x, hx, hx'⟩) (mem_below hrest hslot')
      · obtain ⟨stage', hstage', hslot', hcell, hchildren⟩ := ih hdrop hothers hlast ht
        refine ⟨stage', List.mem_cons_of_mem _ hstage', hslot', ?_, fun x hx => ?_⟩
        · have hne : stage'.slot ∉ [stage].map Stage.slot := by
            rw [List.map_singleton, List.mem_singleton]
            rintro heq
            exact hslot (heq ▸ List.mem_map_of_mem hstage')
          have hnil := linksAt_eq_nil ((below.take stage.onward.length).map Subtree.slot) hne
          rw [List.flatMap_singleton] at hnil
          rw [linksAt_append, hnil, List.nil_append, hcell]
        · rcases hchildren x hx with hx | ⟨job', hjob', hx, hapart⟩
          · exact .inl (List.mem_of_mem_drop hx)
          · refine .inr ⟨job', List.mem_cons_of_mem _ hjob', hx, fun slot hx' hslot => ?_⟩
            rcases mem_slots_jobs_cons.1 hslot with hslot | hslot
            · exact hdisjoint (hy.mem_below hslot)
                (List.mem_flatMap.2 ⟨job', hjob', List.mem_flatMap.2 ⟨x, hx, hx'⟩⟩)
            · exact hapart hx' hslot

end Stage

/-- In a round that is completed, live points are sent on when the places were handed live ones. -/
theorem Job.live_below_of_runAll (hshape : shape.Sound) {jobs : List Job} {stages : List Stage}
    {p p' : Progress} (hready : ∀ job ∈ jobs, job.Ready shape d points)
    (hlive : ∀ job ∈ jobs, ∀ x ∈ job.points, x.live = true)
    (hrun : runAll shape d points p jobs = .ok (stages, p')) :
    ∀ next ∈ stages.flatMap Stage.jobs, ∀ x ∈ next.points, x.live = true := by
  intro next hnext
  obtain ⟨stage, hstage, hnext⟩ := List.mem_flatMap.1 hnext
  obtain ⟨job, hjob, i, hi⟩ := exists_of_forall₂ (served_of_runAll hshape hready hrun) hstage
  exact hi.live_below hshape (hlive job hjob) next hnext

namespace Work

variable {w w₁ w' : Work} {pending : List Pending} {jobs : List Job} {stages : List Stage}
  {below placed : List Subtree} {p p₁ p' : Progress}

theorem Awaits.ne_nil (h : w.Awaits pending jobs) (hne : jobs ≠ []) : pending ≠ [] := by
  rintro rfl
  exact hne (List.forall₂_nil_left_iff.1 h.each)

/-- After a round the store is in order, and the nodes that were served have different slots. -/
theorem StagesAll.exists_holds {l : List Nat} (h : w.StagesAll w₁ points p₁ pending jobs stages)
    (hshape : shape.Sound) (hready : ∀ job ∈ jobs, job.Ready shape d points)
    (hrun : Job.runAll shape d points p jobs = .ok (stages, p₁)) (hl : w.nodes.Holds l)
    (htracks : w.Tracks points p) (hw : w.Awaits pending jobs) :
    ∃ l₁, w₁.nodes.Holds l₁ ∧ (stages.map Stage.slot).Nodup := by
  rcases Job.runAll_cases hready hshape p with ⟨fault, created, herror⟩ |
    ⟨stages', p', minted, gone, dead, hok, hadv, hround⟩
  · exact absurd (hrun.symm.trans herror) (by simp)
  obtain ⟨rfl, rfl⟩ := Prod.mk.inj (Except.ok.inj (hrun.symm.trans hok))
  have hl₁ : w₁.nodes.Holds (minted ++ l) := by
    rw [← Slots.holds_units, h.tracks.labels]
    refine hadv.labels l ?_
    rwa [← htracks.labels, Slots.holds_units]
  obtain ⟨hminted, -, hdisjoint⟩ := List.nodup_append'.1 hl₁.nodup
  refine ⟨_, hl₁, List.Nodup.of_append_left (hround.slots.nodup_iff.2 ?_)⟩
  refine List.nodup_append'.2 ⟨hw.nodup_parts.of_append_left, hminted, fun slot htop hmem => ?_⟩
  refine hdisjoint hmem ((hl.occupied slot).1 (hw.occupied ?_))
  exact (Job.perm_slots jobs).mem_iff.1 (List.mem_append_left _ htop)

/-- What a placement in the store has made of several places in the end. -/
structure SettlesAll (w w' : Work) (points : Slots Point) (p' : Progress) (pending : List Pending)
    (jobs : List Job) (placed : List Subtree) : Prop where
  tracks : w'.Tracks points p'
  puts : w.Puts w' (jobs.flatMap Job.slots)
    ((pending.map Pending.site).zip (placed.map Subtree.slot))
  shows : ∀ t ∈ placed, w'.nodes.Shows t

/-- A round, followed by what comes of the places below. -/
theorem SettlesAll.of_round (hw : w.Awaits pending jobs)
    (hyields : List.Forall₂ (fun job stage => ∃ i, job.Yields shape d points i stage) jobs stages)
    (hslots : (stages.map Stage.slot).Nodup)
    (hround : w.StagesAll w₁ points p₁ pending jobs stages)
    (hlength : below.length = (stages.flatMap Stage.jobs).length)
    (hrest : w₁.SettlesAll w' points p' (stages.flatMap Stage.pending)
      (stages.flatMap Stage.jobs) below) :
    w.SettlesAll w' points p' pending jobs (Stage.finishAll stages below) := by
  have hbelow : ∀ slot ∈ (stages.flatMap Stage.jobs).flatMap Job.slots,
      slot ∈ jobs.flatMap Job.below := fun slot => Stage.mem_below hyields
  refine ⟨hrest.tracks, ⟨fun slot cell hslot hcell => ?_, ?_⟩, fun t ht => ?_⟩
  · -- a node that lies elsewhere is not touched any more
    have hparts := mt (Job.perm_slots jobs).mem_iff.1 hslot
    rw [List.mem_append, not_or] at hparts
    have hstages : slot ∉ stages.map Stage.slot := fun hmem => by
      obtain ⟨stage, hstage, rfl⟩ := List.mem_map.1 hmem
      exact (hround.slot stage hstage).elim hparts.1 fun hfree =>
        hfree (Slots.occupied_iff.2 ⟨cell, hcell⟩)
    rw [hrest.puts.nodes slot _ (fun hmem => hparts.2 (hbelow slot hmem))
      (hround.puts.nodes slot cell hparts.1 hcell), Stage.linksAt_eq_nil _ hstages, Node.relink_nil,
      Stage.map_slot_finishAll]
  · rw [hrest.puts.root, hround.puts.root, Stage.map_slot_finishAll]
    refine rootAfter_eq_self (fun hmem => ?_) _
    obtain ⟨x, hx, hroot⟩ := List.mem_map.1 hmem
    obtain ⟨q, hq, hsite⟩ := List.mem_map.1 (List.of_mem_zip hx).1
    obtain ⟨stage, -, hq⟩ := List.mem_flatMap.1 hq
    have hparent := Stage.parent?_of_mem_pending hq
    rw [hsite, hroot] at hparent
    cases hparent
  · obtain ⟨stage, hstage, hslot, hcell, hchildren⟩ := Stage.exists_of_mem_finishAll hyields hlength
      hslots hw.nodup_parts.of_append_right ht
    have hnot := hround.not_mem_below hw hstage
    refine .of_children ?_ fun x hx => ?_
    · rw [hslot, hcell]
      exact hrest.puts.nodes _ _ (fun hmem => hnot (hbelow _ hmem)) (hround.cells stage hstage)
    · rcases hchildren x hx with hx | ⟨job, hjob, hx, hapart⟩
      · exact hrest.shows x.2 hx
      · refine hrest.puts.shows (hround.shows_kid hw hjob hx) (fun slot => @hapart slot)
          fun y hy slot hslot hparent => ?_
        obtain ⟨q, hq, hsite⟩ := List.mem_map.1 (List.of_mem_zip hy).1
        obtain ⟨stage', hstage', hq⟩ := List.mem_flatMap.1 hq
        rw [← hsite, Stage.parent?_of_mem_pending hq] at hparent
        refine hround.not_mem_below hw hstage' ?_
        rw [Option.some.inj hparent]
        exact List.mem_flatMap.2 ⟨job, hjob, List.mem_flatMap.2 ⟨x, hx, hslot⟩⟩

end Work

namespace Placing

variable {w : Work}

theorem settle_of_serveAll {limit : Nat} {pending next : List Pending} {w₁ : Work}
    (hne : pending ≠ []) (h : serveAll shape d pending w = .ok (.ok next, w₁)) :
    settle shape d (limit + 1) pending w = settle shape d limit next w₁ := by
  obtain ⟨q, qs, rfl⟩ := List.exists_cons_of_ne_nil hne
  exact bind_of_ok h _

/-- **All rounds**: both placements come to the same. -/
theorem follows_settle (hshape : shape.Sound) {n limit : Nat} {pending : List Pending}
    {jobs : List Job} {p : Progress} {outcome : Except Halt (List Subtree × Progress)}
    {l : List Nat} (hrounds : Rounds shape d points n p jobs outcome) (hlimit : n ≤ limit)
    (hready : ∀ job ∈ jobs, job.Ready shape d points)
    (hlive : ∀ job ∈ jobs, ∀ x ∈ job.points, x.live = true) (hl : w.nodes.Holds l)
    (htracks : w.Tracks points p) (hw : w.Awaits pending jobs) :
    (∃ fault created w', outcome = .error (.refused fault created) ∧
      settle shape d limit pending w = .ok (.error fault, w') ∧
      w'.Halts points created) ∨
    ∃ placed p' w', outcome = .ok (placed, p') ∧
      settle shape d limit pending w = .ok (.ok (), w') ∧
      w.SettlesAll w' points p' pending jobs placed := by
  -- induction on the rounds: after the first, points wait for the places below
  induction hrounds generalizing w pending limit l with
  | done p =>
      obtain rfl := List.forall₂_nil_right_iff.1 hw.each
      exact .inr ⟨[], p, w, rfl, by cases limit <;> rfl, htracks, .refl w, by simp⟩
  | @halt p jobs halt hne hrun =>
      obtain ⟨limit, rfl⟩ := Nat.exists_eq_add_of_le' hlimit
      obtain ⟨q, qs, rfl⟩ := List.exists_cons_of_ne_nil (hw.ne_nil hne)
      rcases follows_serveAll hshape hready hlive hl htracks hw with
        ⟨fault, created, w', herror, hserve, hhalts⟩ | ⟨stages, p', w', hok, -⟩
      · obtain rfl := Except.error.inj (hrun.symm.trans herror)
        exact .inl ⟨fault, created, w', rfl, bind_of_error hserve _, hhalts⟩
      · exact absurd (hrun.symm.trans hok) (by simp)
  | @round n p p₁ jobs stages outcome hne hrun hrest ih =>
      obtain ⟨limit, rfl⟩ := Nat.exists_eq_add_of_le' (Nat.le_of_add_left_le hlimit)
      rcases follows_serveAll hshape hready hlive hl htracks hw with
        ⟨fault, created, w', herror, -⟩ | ⟨stages', p', w₁, hok, hserve, hround⟩
      · exact absurd (hrun.symm.trans herror) (by simp)
      obtain ⟨rfl, rfl⟩ := Prod.mk.inj (Except.ok.inj (hrun.symm.trans hok))
      have hyields : List.Forall₂ (fun job stage => ∃ i, job.Yields shape d points i stage)
          jobs stages :=
        (Job.served_of_runAll hshape hready hrun).imp fun _ _ ⟨i, hi⟩ => ⟨i, hi.yields⟩
      have hnext := Job.ready_below_of_runAll hshape hready hrun
      have hnextLive := Job.live_below_of_runAll hshape hready hlive hrun
      obtain ⟨l₁, hl₁, hslots⟩ := hround.exists_holds hshape hready hrun hl htracks hw
      rw [settle_of_serveAll (hw.ne_nil hne) hserve]
      rcases ih (Nat.le_of_succ_le_succ hlimit) hnext hnextLive hl₁ hround.tracks
          (hround.awaits_below hw hyields hslots) with
        ⟨fault, created, w', rfl, hsettle, hhalts⟩ | ⟨below, p', w', rfl, hsettle, hsettled⟩
      · exact .inl ⟨fault, created, w', rfl, hsettle, hhalts⟩
      · refine .inr ⟨_, p', w', rfl, hsettle, .of_round hw hyields hslots hround ?_ hsettled⟩
        exact hrest.length_placed hshape hnext

end Placing

/-! ### A whole batch -/

namespace Work

/-- The root that a batch is to be handed to stands where it does among values, and nothing has been
entered into the journal. -/
structure Begins (w : Work) (points : Slots Point) (labels : Slots Unit) (root : Option Subtree) :
    Prop where
  tracks : w.Tracks points { labels }
  top : w.root = root.map Subtree.slot
  shows : ∀ t ∈ root, w.nodes.Shows t
  nodup : ∀ t ∈ root, t.slots.Nodup

variable {w : Work} {labels : Slots Unit} {root : Option Subtree} {batch : List Held}

/-- The batch waits for the root's place. -/
theorem Begins.awaits (h : w.Begins points labels root) :
    w.Awaits [⟨.root, batch⟩] [⟨root, batch⟩] where
  each := by
    refine .cons ⟨rfl, ?_, h.shows⟩ .nil
    change w.Opens .root (root.map Subtree.slot)
    rw [← h.top]
    exact .root
  sites := List.nodup_singleton _
  slots := by
    rw [List.flatMap_singleton]
    cases root with
    | none => exact List.nodup_nil
    | some t => exact h.nodup t rfl
  above := by
    intro q hq parent hparent
    obtain rfl := List.mem_singleton.1 hq
    cases hparent

end Work

namespace Placing

variable {w : Work} {labels : Slots Unit} {root : Option Subtree} {batch : List Held}

/-- **A whole batch**: a node refuses in both placements with the same fault, after as many new
nodes, or the new root is laid out in the store. -/
theorem follows_place (hshape : shape.Sound) {l : List Nat} (hne : batch ≠ [])
    (hlook : ∀ h ∈ batch, points.heldAt h.slot = h) (hlive : ∀ h ∈ batch, h.live = true)
    (hroot : ∀ t ∈ root, t.Sound shape d points)
    (hpoints : points.Holds (Job.held ⟨root, batch⟩)) (hl : w.nodes.Holds l)
    (hw : w.Begins points labels root) :
    (∃ fault created w', Vantage.place shape d points labels root batch =
        .error (.refused fault created) ∧
      place shape d batch w = .ok (.error fault, w') ∧ w'.Halts points created) ∨
    ∃ t p w', Vantage.place shape d points labels root batch = .ok (some t, p) ∧
      place shape d batch w = .ok (.ok (), w') ∧ w'.Tracks points p ∧
      w'.root = some t.slot ∧ w'.nodes.Shows t := by
  have hready := List.forall_mem_singleton.2 (ready_batch hne hlook hroot hpoints)
  obtain ⟨n, outcome, hn, hrounds, -⟩ := exists_rounds hshape { labels } hready
    (List.forall_mem_singleton.2 (Nat.lt_succ_self (Job.weight ⟨root, batch⟩)))
  -- there are enough rounds on both sides
  have habstract : n ≤ enoughRounds points root := hn.trans (weight_lt_enoughRounds hpoints)
  have hlimit : n ≤ w.nodes.size + w.points.size + 1 := by
    refine hn.trans (Nat.succ_le_succ ?_)
    have hheld : (Job.held ⟨root, batch⟩).length = w.points.size := by
      rw [hw.tracks.points, hpoints.size]
    have hheight : root.elim 0 Subtree.height ≤ w.nodes.size := by
      cases hr : root with
      | none => exact Nat.zero_le _
      | some t =>
          have hslots : t.slots ⊆ l := fun slot hslot =>
            (hl.occupied slot).1 (Slots.occupied_iff.2 ((hw.shows t hr).exists_get? hslot))
          rw [hl.size]
          exact t.height_le_length_slots.trans
            (List.subperm_of_subset (hw.nodup t hr) hslots).length_le
    rw [Job.weight, hheld]
    exact Nat.add_le_add_right hheight _
  rw [Vantage.place, hrounds.settle_eq habstract]
  rcases follows_settle hshape hrounds hlimit hready (List.forall_mem_singleton.2 hlive) hl
      hw.tracks hw.awaits with
    ⟨fault, created, w', rfl, hsettle, hhalts⟩ | ⟨placed, p, w', rfl, hsettle, hsettled⟩
  · exact .inl ⟨fault, created, w', rfl, hsettle, hhalts⟩
  · obtain ⟨t, rfl⟩ := List.length_eq_one_iff.1 (hrounds.length_placed hshape hready)
    refine .inr ⟨t, p, w', rfl, hsettle, hsettled.tracks, ?_, hsettled.shows t (by simp)⟩
    rw [hsettled.puts.root]
    rfl

end Placing

end Vantage
