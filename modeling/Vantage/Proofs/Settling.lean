/-
**A batch comes to rest, and every point in it.**

Serving one place gives a sound node there, and the points that it sends on give places below. A
round serves all places of a level; the rounds end because a place lies lower in the tree than the
one from which its points came, or has fewer points below and on their way to it. When they end,
each place has a sound subtree that holds what the place was given, except dead points.

Main definitions:

* `Job.Ready` — points and place are in order;
* `Job.weight` — what decreases from a place to the places below it;
* `Job.Yields` — what became of one place;
* `Progress.Advances` — which slots were taken and listed on the way;
* `Job.Settles` — the subtree that stands at a place in the end.

Main results:

* `Job.run_cases`, `Job.runAll_cases`, `settle_cases` — **one place, one round, and all rounds**:
  a node refuses, or points and slots are conserved and soundness is kept;
* `Job.exists_run`, `Job.exists_runAll`, `exists_settle` — with a sortable metric no node refuses.
-/

import Mathlib.Data.List.Perm.Basic
import Mathlib.Data.List.Forall2
import Vantage.Proofs.Subtrees

set_option relaxedAutoImplicit false
set_option autoImplicit false

namespace Vantage

variable {shape : Shape} {d : Metric} {points : Slots Point}

/-! ### Slots taken and listed -/

namespace Progress

/-- Between two moments of a placement the slots `minted` were taken for new nodes, and the slots
`gone` of nodes and `dead` of points were listed. -/
structure Advances (p p' : Progress) (minted gone dead : List Nat) : Prop where
  labels : ∀ l, p.labels.Holds l → p'.labels.Holds (minted ++ l)
  created : p'.created = p.created + minted.length
  discarded : p'.discarded = p.discarded ++ gone
  dead : p'.dead = p.dead ++ dead

theorem Advances.refl (p : Progress) : p.Advances p [] [] [] where
  labels _ h := h
  created := rfl
  discarded := (List.append_nil _).symm
  dead := (List.append_nil _).symm

theorem Advances.trans {p₁ p₂ p₃ : Progress} {minted₁ minted₂ gone₁ gone₂ dead₁ dead₂ : List Nat}
    (h₁ : p₁.Advances p₂ minted₁ gone₁ dead₁) (h₂ : p₂.Advances p₃ minted₂ gone₂ dead₂) :
    p₁.Advances p₃ (minted₂ ++ minted₁) (gone₁ ++ gone₂) (dead₁ ++ dead₂) where
  labels l h := by
    rw [List.append_assoc]
    exact h₂.labels _ (h₁.labels l h)
  created := by
    rw [h₂.created, h₁.created, List.length_append]
    omega
  discarded := by rw [h₂.discarded, h₁.discarded, List.append_assoc]
  dead := by rw [h₂.dead, h₁.dead, List.append_assoc]

/-- A new node takes a slot, and the slot of the node that it replaces is listed; a node that stays
keeps its slot. -/
theorem advances_enter (p : Progress) (standing : Option Nat) (i : Intake Subtree) :
    ∃ minted gone, p.Advances (p.enter standing i).2 minted gone (i.dead.map Held.slot) ∧
      ((p.enter standing i).1 :: gone).Perm (standing.toList ++ minted) := by
  have htake : ∃ minted gone, p.Advances
      { labels := (p.labels.alloc ()).2, created := p.created + 1
        discarded := p.discarded ++ standing.toList, dead := p.dead ++ i.dead.map Held.slot }
      minted gone (i.dead.map Held.slot) ∧
        ((p.labels.alloc ()).1 :: gone).Perm (standing.toList ++ minted) :=
    ⟨[(p.labels.alloc ()).1], standing.toList, ⟨fun l h => h.alloc (), rfl, rfl, rfl⟩,
      (List.perm_append_singleton _ _).symm⟩
  cases standing with
  | none => exact htake
  | some slot =>
      cases hfresh : i.fresh with
      | true =>
          simp only [enter, hfresh]
          exact htake
      | false =>
          simp only [enter, hfresh]
          exact ⟨[], [], ⟨fun l h => h, rfl, (List.append_nil _).symm, rfl⟩, .refl _⟩

end Progress

/-! ### Places -/

namespace Job

variable {α : Type}

/-- The subtrees below the node that stands at a place. -/
def kids (job : Job) : List (Nat × Subtree) := job.site.elim [] Subtree.children

/-- The points of the node that stands at a place. -/
def own (job : Job) : List Nat := job.site.elim [] fun t => t.node.points

/-- What the nodes at and below a place contribute. -/
def contents (f : Subtree → List α) (job : Job) : List α := job.site.elim [] (Subtree.contents f)

theorem contents_eq (f : Subtree → List α) (job : Job) :
    job.contents f = job.site.elim [] f ++ job.kids.flatMap fun x => x.2.contents f := by
  obtain ⟨site, points⟩ := job
  cases site with
  | none => rfl
  | some t => exact Subtree.contents_eq f t

/-- The slots of the points at and below a place, and of those on their way to it. -/
def held (job : Job) : List Nat := job.contents Subtree.own ++ job.points.map Held.slot

/-- The levels at and below a place, and the points at, below and on their way to it. -/
def weight (job : Job) : Nat := job.site.elim 0 Subtree.height + job.held.length

/-- The points on their way are what their slots hold, and what stands at the place is sound. -/
structure Ready (shape : Shape) (d : Metric) (points : Slots Point) (job : Job) : Prop where
  looked : ∀ h ∈ job.points, points.heldAt h.slot = h
  nonempty : job.points ≠ []
  site : ∀ t ∈ job.site, t.Sound shape d points
  occupied : ∀ slot ∈ job.contents Subtree.own, points.Occupied slot

/-- What became of a place: a node that took the points, and what it sends on. -/
structure Yields (shape : Shape) (d : Metric) (points : Slots Point) (job : Job)
    (i : Intake Subtree) (stage : Stage) : Prop where
  intake : i.Sound shape d (Subtree.values points) job.kids
    (job.own.map points.heldAt ++ job.points)
  node : stage.node = i.node.mapPoints Held.slot
  onward : stage.onward = i.onward.map fun x => (x.1, ⟨Keyed.get? x.1 i.node.children, x.2⟩)

/-- What the node at a place, or a new one, makes of the points. -/
def attempt (shape : Shape) (d : Metric) (points : Slots Point) (job : Job) :
    Except Fault (Intake Subtree) :=
  job.site.elim (Node.create shape d job.points) fun t =>
    (t.node.mapPoints points.heldAt).absorb shape d job.points

/-- Serving a place enters what its node makes of the points. -/
theorem run_eq {job : Job} (hocc : ∀ slot ∈ job.own, points.Occupied slot) (p : Progress) :
    job.run shape d points p = do
      let i ← (job.attempt shape d points).mapError (.refused · p.created)
      let entered := p.enter (job.site.map Subtree.slot) i
      let onward ← (i.node.jobs i.onward).mapError (.refused · entered.2.created)
      return (⟨entered.1, i.node.mapPoints Held.slot, onward⟩, entered.2) := by
  obtain ⟨site, incoming⟩ := job
  cases site with
  | none => rfl
  | some t =>
      have hlook : t.node.lookUp points = .ok (t.node.mapPoints points.heldAt) :=
        Node.lookUp_eq hocc
      simp only [run, hlook, mapError_ok, ok_bind]
      rfl

variable {job : Job}

namespace Ready

theorem own_occupied (h : job.Ready shape d points) : ∀ slot ∈ job.own, points.Occupied slot := by
  intro slot hslot
  refine h.occupied slot ?_
  rw [contents_eq]
  exact List.mem_append_left _ hslot

/-- The node at a place, with its points looked up, is sound. -/
theorem sound_looked {t : Subtree} (h : t.Sound shape d points) :
    (t.node.mapPoints points.heldAt).Sound shape d Held.value (Subtree.values points) :=
  h.node.mapPoints (fun _ _ => rfl) fun _ _ _ hv => hv

theorem sound_attempt (h : job.Ready shape d points) (hshape : shape.Sound) {i : Intake Subtree}
    (hi : job.attempt shape d points = .ok i) :
    i.Sound shape d (Subtree.values points) job.kids
      (job.own.map points.heldAt ++ job.points) := by
  obtain ⟨site, incoming⟩ := job
  cases site with
  | none => exact (Node.sound_create hshape h.nonempty hi).2
  | some t =>
      have hsound := Node.sound_absorb hshape (sound_looked (h.site t rfl)) h.nonempty hi
      rwa [Node.points_mapPoints, Node.children_mapPoints] at hsound

theorem exists_attempt (h : job.Ready shape d points) (hshape : shape.Sound) (hd : d.Sortable) :
    ∃ i, job.attempt shape d points = .ok i := by
  obtain ⟨site, incoming⟩ := job
  cases site with
  | none => exact Node.exists_create hshape hd h.nonempty
  | some t => exact Node.exists_absorb hshape hd (sound_looked (h.site t rfl)) h.nonempty

end Ready

/-- Serving a place for which a node takes the points. -/
theorem run_of_attempt (h : job.Ready shape d points) (hshape : shape.Sound) {i : Intake Subtree}
    (hi : job.attempt shape d points = .ok i) (p : Progress) :
    ∃ stage p' minted gone, job.run shape d points p = .ok (stage, p') ∧
      job.Yields shape d points i stage ∧ p.Advances p' minted gone (i.dead.map Held.slot) ∧
      (stage.slot :: gone).Perm ((job.site.map Subtree.slot).toList ++ minted) := by
  have hsound := h.sound_attempt hshape hi
  obtain ⟨minted, gone, hadv, hslots⟩ := p.advances_enter (job.site.map Subtree.slot) i
  have hjobs := Node.jobs_eq hsound.routes hsound.nonempty
  refine ⟨⟨_, i.node.mapPoints Held.slot, _⟩, _, minted, gone, ?_, ⟨hsound, rfl, rfl⟩, hadv, hslots⟩
  rw [run_eq h.own_occupied, hi]
  simp only [mapError_ok, ok_bind, hjobs]
  rfl

/-- **One place.**  The node refuses the points, or takes them. -/
theorem run_cases (h : job.Ready shape d points) (hshape : shape.Sound) (p : Progress) :
    (∃ fault created, job.run shape d points p = .error (.refused fault created)) ∨
      ∃ i stage p' minted gone, job.run shape d points p = .ok (stage, p') ∧
        job.Yields shape d points i stage ∧ p.Advances p' minted gone (i.dead.map Held.slot) ∧
        (stage.slot :: gone).Perm ((job.site.map Subtree.slot).toList ++ minted) := by
  cases hi : job.attempt shape d points with
  | ok i => exact .inr ⟨i, run_of_attempt h hshape hi p⟩
  | error fault =>
      refine .inl ⟨fault, p.created, ?_⟩
      rw [run_eq h.own_occupied, hi]
      rfl

theorem exists_run (h : job.Ready shape d points) (hshape : shape.Sound) (hd : d.Sortable)
    (p : Progress) : ∃ r, job.run shape d points p = .ok r := by
  obtain ⟨i, hi⟩ := h.exists_attempt hshape hd
  obtain ⟨stage, p', -, -, hrun, -⟩ := run_of_attempt h hshape hi p
  exact ⟨(stage, p'), hrun⟩

/-- The slots of the points on their way to a place. -/
def sent (job : Job) : List Nat := job.points.map Held.slot

end Job

/-- The places to which a node sends points. -/
def Stage.jobs (stage : Stage) : List Job := stage.onward.map Prod.snd

namespace Job

variable {job : Job} {i : Intake Subtree} {stage : Stage}

/-- The points that a node was given are what their slots hold. -/
theorem Yields.looked (h : job.Yields shape d points i stage) (hjob : job.Ready shape d points)
    {p : Held} (hp : p ∈ i.node.points ++ (i.onward.flatMap Prod.snd ++ i.dead)) :
    points.heldAt p.slot = p := by
  rcases List.mem_append.1 (h.intake.perm.mem_iff.1 hp) with hp | hp
  · obtain ⟨slot, -, rfl⟩ := List.mem_map.1 hp
    rfl
  · exact hjob.looked p hp

theorem Yields.flatMap_sent (h : job.Yields shape d points i stage) :
    stage.jobs.flatMap sent = (i.onward.flatMap Prod.snd).map Held.slot := by
  rw [Stage.jobs, h.onward, List.map_map, List.flatMap_map, List.map_flatMap]
  rfl

/-- At one place no point is lost. -/
theorem Yields.perm (h : job.Yields shape d points i stage) :
    (stage.node.points ++ (stage.jobs.flatMap sent ++ i.dead.map Held.slot)).Perm
      (job.own ++ job.sent) := by
  have hperm := h.intake.perm.map Held.slot
  rw [List.map_append, List.map_append, List.map_append, List.map_map,
    show Held.slot ∘ points.heldAt = id from rfl, List.map_id] at hperm
  rw [h.node, Node.points_mapPoints, h.flatMap_sent]
  exact hperm

theorem Yields.dead (h : job.Yields shape d points i stage) (hjob : job.Ready shape d points) :
    ∀ slot ∈ i.dead.map Held.slot, (points.heldAt slot).live = false := by
  intro slot hslot
  obtain ⟨p, hp, rfl⟩ := List.mem_map.1 hslot
  rw [h.looked hjob (List.mem_append_right _ (List.mem_append_right _ hp))]
  exact h.intake.dead p hp

/-! ### One round -/

/-- What a round does: one node for each place, and points and slots conserved. -/
structure Round (shape : Shape) (d : Metric) (points : Slots Point) (jobs : List Job)
    (stages : List Stage) (minted gone dead : List Nat) : Prop where
  each : List.Forall₂ (fun job stage => ∃ i, job.Yields shape d points i stage) jobs stages
  conserved : (stages.flatMap (fun s => s.node.points) ++
    ((stages.flatMap Stage.jobs).flatMap sent ++ dead)).Perm (jobs.flatMap own ++ jobs.flatMap sent)
  slots : (stages.map Stage.slot ++ gone).Perm
    (jobs.flatMap (fun job => (job.site.map Subtree.slot).toList) ++ minted)
  dead : ∀ slot ∈ dead, (points.heldAt slot).live = false

/-- One place in front of a round. -/
theorem Round.cons {jobs : List Job} {stages : List Stage}
    {minted minted' gone gone' dead : List Nat}
    (hy : job.Yields shape d points i stage) (hjob : job.Ready shape d points)
    (hslots : (stage.slot :: gone).Perm ((job.site.map Subtree.slot).toList ++ minted))
    (h : Round shape d points jobs stages minted' gone' dead) :
    Round shape d points (job :: jobs) (stage :: stages) (minted' ++ minted) (gone ++ gone')
      (i.dead.map Held.slot ++ dead) where
  each := .cons ⟨i, hy⟩ h.each
  conserved := by
    have hfirst := hy.perm
    have hrest := h.conserved
    simp only [List.flatMap_cons, List.flatMap_append]
    -- each slot occurs as often on both sides: here and in the rest of the round
    rw [List.perm_iff_count] at hfirst hrest ⊢
    intro slot
    have h₁ := hfirst slot
    have h₂ := hrest slot
    simp only [List.count_append] at h₁ h₂ ⊢
    omega
  slots := by
    have hrest := h.slots
    simp only [List.flatMap_cons, List.map_cons]
    rw [List.perm_iff_count] at hslots hrest ⊢
    intro slot
    have h₁ := hslots slot
    have h₂ := hrest slot
    simp only [List.count_append, List.count_cons] at h₁ h₂ ⊢
    omega
  dead slot hslot := by
    rcases List.mem_append.1 hslot with hslot | hslot
    · exact hy.dead hjob slot hslot
    · exact h.dead slot hslot

/-- **One round.**  A node refuses its points, or all places are served. -/
theorem runAll_cases {jobs : List Job} (h : ∀ job ∈ jobs, job.Ready shape d points)
    (hshape : shape.Sound) (p : Progress) :
    (∃ fault created, runAll shape d points p jobs = .error (.refused fault created)) ∨
      ∃ stages p' minted gone dead, runAll shape d points p jobs = .ok (stages, p') ∧
        p.Advances p' minted gone dead ∧ Round shape d points jobs stages minted gone dead := by
  induction jobs generalizing p with
  | nil =>
      exact .inr ⟨[], p, [], [], [], rfl, .refl p, .nil, .refl _, .refl _, by simp⟩
  | cons job jobs ih =>
      obtain ⟨hjob, hjobs⟩ := List.forall_mem_cons.1 h
      rcases run_cases hjob hshape p with ⟨fault, created, hrun⟩ |
        ⟨i, stage, p₁, minted, gone, hrun, hy, hadv, hslots⟩
      · exact .inl ⟨fault, created, by simp [runAll, hrun]⟩
      · rcases ih hjobs p₁ with ⟨fault, created, hrest⟩ |
          ⟨stages, p₂, minted', gone', dead, hrest, hadv', hround⟩
        · exact .inl ⟨fault, created, by simp [runAll, hrun, hrest]⟩
        · exact .inr ⟨stage :: stages, p₂, _, _, _, by simp [runAll, hrun, hrest],
            hadv.trans hadv', hround.cons hy hjob hslots⟩

theorem exists_runAll {jobs : List Job} (h : ∀ job ∈ jobs, job.Ready shape d points)
    (hshape : shape.Sound) (hd : d.Sortable) (p : Progress) :
    ∃ r, runAll shape d points p jobs = .ok r := by
  induction jobs generalizing p with
  | nil => exact ⟨_, rfl⟩
  | cons job jobs ih =>
      obtain ⟨hjob, hjobs⟩ := List.forall_mem_cons.1 h
      obtain ⟨⟨stage, p₁⟩, hrun⟩ := exists_run hjob hshape hd p
      obtain ⟨⟨stages, p₂⟩, hrest⟩ := ih hjobs p₁
      exact ⟨(stage :: stages, p₂), by simp [runAll, hrun, hrest]⟩

/-! ### The places below -/

/-- A place to which points are sent: its points are among those sent, and what stands there is
the child of the index. -/
theorem Yields.mem_jobs (h : job.Yields shape d points i stage) {next : Job}
    (hnext : next ∈ stage.jobs) :
    ∃ x ∈ i.onward, next = ⟨Keyed.get? x.1 job.kids, x.2⟩ := by
  rw [Stage.jobs, h.onward, List.map_map] at hnext
  obtain ⟨x, hx, rfl⟩ := List.mem_map.1 hnext
  refine ⟨x, hx, ?_⟩
  rw [← h.intake.children]
  rfl

theorem kids_sound (hjob : job.Ready shape d points) {x : Nat × Subtree} (hx : x ∈ job.kids) :
    x.2.Sound shape d points := by
  obtain ⟨site, incoming⟩ := job
  cases site with
  | none => exact absurd hx (by simp [kids])
  | some t => exact (hjob.site t rfl).child hx

theorem mem_contents_of_kid {f : Subtree → List Nat} {x : Nat × Subtree} (hx : x ∈ job.kids)
    {a : Nat} (ha : a ∈ x.2.contents f) : a ∈ job.contents f := by
  rw [contents_eq]
  exact List.mem_append_right _ (List.mem_flatMap.2 ⟨x, hx, ha⟩)

/-- The places below are in order. -/
theorem Yields.ready (h : job.Yields shape d points i stage) (hjob : job.Ready shape d points)
    {next : Job} (hnext : next ∈ stage.jobs) : next.Ready shape d points := by
  obtain ⟨x, hx, rfl⟩ := h.mem_jobs hnext
  refine ⟨fun p hp => ?_, h.intake.nonempty x hx, fun t ht => ?_, fun slot hslot => ?_⟩
  · exact h.looked hjob (List.mem_append_right _ (List.mem_append_left _
      (List.mem_flatMap.2 ⟨x, hx, hp⟩)))
  · exact kids_sound hjob (Keyed.mem_of_get? ht)
  · cases hchild : Keyed.get? x.1 job.kids with
    | none => exact absurd hslot (by simp [contents, hchild])
    | some t =>
        refine hjob.occupied slot (mem_contents_of_kid (Keyed.mem_of_get? hchild) ?_)
        simpa [contents, hchild] using hslot

/-- What a node keeps, sends on or gives up was at its place or on its way to it. -/
theorem Yields.mem_held_of_passed (h : job.Yields shape d points i stage) {slot : Nat}
    (hslot : slot ∈ stage.node.points ++ (stage.jobs.flatMap sent ++ i.dead.map Held.slot)) :
    slot ∈ job.held := by
  rw [held, contents_eq]
  rcases List.mem_append.1 (h.perm.mem_iff.1 hslot) with hown | hsent
  · exact List.mem_append_left _ (List.mem_append_left _ hown)
  · exact List.mem_append_right _ hsent

/-- What a place below holds or is sent, its parent held or was sent. -/
theorem Yields.mem_held_of_next (h : job.Yields shape d points i stage) {next : Job}
    (hnext : next ∈ stage.jobs) {slot : Nat} (hslot : slot ∈ next.held) : slot ∈ job.held := by
  rcases List.mem_append.1 hslot with hmem | hmem
  · obtain ⟨x, hx, rfl⟩ := h.mem_jobs hnext
    refine List.mem_append_left _ ?_
    cases hchild : Keyed.get? x.1 job.kids with
    | none => exact absurd hmem (by simp [contents, hchild])
    | some t =>
        rw [contents, hchild] at hmem
        exact mem_contents_of_kid (Keyed.mem_of_get? hchild) hmem
  · exact h.mem_held_of_passed (List.mem_append_right _ (List.mem_append_left _
      (List.mem_flatMap.2 ⟨next, hnext, hmem⟩)))

theorem length_le_flatMap {α β : Type} {f : α → List β} {l : List α} {a : α} (h : a ∈ l) :
    (f a).length ≤ (l.flatMap f).length := by
  obtain ⟨l₁, l₂, rfl⟩ := List.append_of_mem h
  simp only [List.flatMap_append, List.flatMap_cons, List.length_append]
  omega

theorem height_kid_lt {x : Nat × Subtree} (hx : x ∈ job.kids) :
    x.2.height < job.site.elim 0 Subtree.height := by
  obtain ⟨site, incoming⟩ := job
  cases site with
  | none => exact absurd hx (by simp [kids])
  | some t => exact Subtree.height_lt_of_child hx

/-- **A place below weighs less**: a node keeps a point at least, and a child is a level lower. -/
theorem Yields.weight_lt (h : job.Yields shape d points i stage) (hshape : shape.Sound)
    {next : Job} (hnext : next ∈ stage.jobs) : next.weight < job.weight := by
  obtain ⟨x, hx, rfl⟩ := h.mem_jobs hnext
  have hkept := List.length_pos_of_ne_nil (h.intake.node.points_ne_nil hshape)
  have hlength := h.intake.perm.length_eq
  have hsent : x.2.length ≤ (i.onward.flatMap Prod.snd).length := length_le_flatMap hx
  have hcontents := congrArg List.length (contents_eq Subtree.own job)
  have hown : (job.site.elim [] Subtree.own).length = job.own.length := rfl
  simp only [weight, held, List.length_append, List.length_map] at hlength hcontents ⊢
  cases hchild : Keyed.get? x.1 job.kids with
  | none =>
      -- no child stands there yet: the points sent are fewer, by those that the node kept
      simp only [contents, Option.elim_none, List.length_nil] at hcontents ⊢
      omega
  | some t =>
      -- a child stands there: it is lower than the node
      have hmem := Keyed.mem_of_get? hchild
      have hheight := height_kid_lt hmem
      have hbelow : (t.contents Subtree.own).length ≤
          (job.kids.flatMap fun x => x.2.contents Subtree.own).length :=
        length_le_flatMap (f := fun x : Nat × Subtree => x.2.contents Subtree.own) hmem
      simp only [contents, Option.elim_some] at hcontents hheight ⊢
      omega

end Job

/-! ### Linking what has settled -/

theorem exists_of_forall₂ {α β : Type} {R : α → β → Prop} {l₁ : List α} {l₂ : List β}
    (h : List.Forall₂ R l₁ l₂) {b : β} (hb : b ∈ l₂) : ∃ a ∈ l₁, R a b := by
  induction h with
  | nil => exact absurd hb (by simp)
  | @cons a b' l₁ l₂ hab hrest ih =>
      rcases List.mem_cons.1 hb with rfl | hb
      · exact ⟨a, List.mem_cons_self, hab⟩
      · obtain ⟨a', ha', hR⟩ := ih hb
        exact ⟨a', List.mem_cons_of_mem _ ha', hR⟩

section finish

variable {f : Subtree → List Nat}

/-- What a node contributes does not depend on its children. -/
def Local (f : Subtree → List Nat) : Prop :=
  ∀ slot node links, f ⟨slot, Node.relink node links⟩ = f ⟨slot, node⟩

theorem local_own : Local Subtree.own := fun _ node links => Node.points_relink node links

theorem local_slot : Local fun t => [t.slot] := fun _ _ _ => rfl

namespace Stage

variable {job : Job} {i : Intake Subtree} {stage : Stage} {below : List Subtree}

/-- The links to the subtrees that have settled below a node. -/
def links (stage : Stage) (below : List Subtree) : List (Nat × Subtree) :=
  (stage.onward.map Prod.fst).zip below

/-- A node sends points to places that it has. -/
theorem lt_fanout (h : job.Yields shape d points i stage) {x : Nat × Job} (hx : x ∈ stage.onward) :
    x.1 < stage.node.fanout := by
  rw [h.onward] at hx
  obtain ⟨y, hy, rfl⟩ := List.mem_map.1 hx
  obtain ⟨p, hp⟩ := List.exists_mem_of_ne_nil _ (h.intake.nonempty y hy)
  rw [h.node, Node.fanout_mapPoints]
  exact (h.intake.routes y hy p hp).lt_fanout

theorem children_eq (h : job.Yields shape d points i stage) : stage.node.children = job.kids := by
  rw [h.node, Node.children_mapPoints, h.intake.children]

theorem nodup_onward (h : job.Yields shape d points i stage) :
    (stage.onward.map Prod.fst).Nodup := by
  rw [h.onward, List.map_map]
  exact h.intake.ascending.nodup

/-- The children of a node once the places below it have settled. -/
theorem children_finish (h : job.Yields shape d points i stage) :
    (stage.finish below).children = Keyed.setAll (stage.links below) job.kids := by
  rw [← children_eq h]
  refine Node.children_relink fun x hx => ?_
  obtain ⟨y, hy, hyx⟩ := List.mem_map.1 (List.of_mem_zip hx).1
  exact hyx ▸ lt_fanout h hy

theorem map_fst_links (hlength : below.length = stage.onward.length) :
    (stage.links below).map Prod.fst = stage.onward.map Prod.fst :=
  List.map_fst_zip (by rw [List.length_map, hlength])

/-- No two subtrees are linked under one index. -/
theorem nodup_links (h : job.Yields shape d points i stage)
    (hlength : below.length = stage.onward.length) :
    ((stage.links below).map Prod.fst).Nodup := by
  rw [map_fst_links hlength]
  exact nodup_onward h

theorem ascending_kids (h : job.Yields shape d points i stage) : Keyed.Ascending job.kids :=
  h.intake.children ▸ h.intake.node.ascending

/-- A child of a finished node has settled below it, or it stood there before and was sent
nothing. -/
theorem mem_children_finish (h : job.Yields shape d points i stage)
    (hlength : below.length = stage.onward.length) {x : Nat × Subtree} :
    x ∈ (stage.finish below).children ↔
      x ∈ stage.links below ∨ (x ∈ job.kids ∧ x.1 ∉ (stage.links below).map Prod.fst) := by
  rw [children_finish h]
  exact Keyed.mem_setAll (ascending_kids h) (nodup_links h hlength)

theorem map_snd_links (hlength : below.length = stage.onward.length) :
    (stage.links below).map Prod.snd = below :=
  List.map_snd_zip (by rw [List.length_map, hlength])

/-- What stands at the places below a node contributes under the indices of the places. -/
theorem contents_jobs (h : job.Yields shape d points i stage) :
    stage.jobs.flatMap (Job.contents f) = (stage.onward.map Prod.fst).flatMap fun k =>
      (Keyed.get? k job.kids).elim [] (Subtree.contents f) := by
  rw [jobs, h.onward, List.map_map, List.map_map, List.flatMap_map, List.flatMap_map,
    ← h.intake.children]
  rfl

/-- **At one place**: what the finished subtree contributes, and what stood at the places below, is
what the node contributes, what stood below it, and what has settled there. -/
theorem perm_finish (hf : Local f) (h : job.Yields shape d points i stage)
    (hlength : below.length = stage.onward.length) :
    ((stage.finish below).contents f ++ stage.jobs.flatMap (Job.contents f)).Perm
      (f ⟨stage.slot, stage.node⟩ ++ ((job.kids.flatMap fun x => x.2.contents f) ++
        below.flatMap (Subtree.contents f))) := by
  have hperm := (Keyed.perm_setAll (ascending_kids h) (nodup_links h hlength)).flatMap_right
    fun x => x.2.contents f
  -- the children that give way are those that stood at the places below
  have hold : ((stage.links below).flatMap fun x =>
      (Keyed.get? x.1 job.kids).toList.map (Prod.mk x.1)).flatMap (fun x => x.2.contents f) =
        stage.jobs.flatMap (Job.contents f) := by
    rw [contents_jobs h, ← map_fst_links hlength, List.flatMap_map, List.flatMap_assoc]
    refine List.flatMap_congr fun x _ => ?_
    cases Keyed.get? x.1 job.kids <;> simp
  have hnew : (stage.links below).flatMap (fun x => x.2.contents f) =
      below.flatMap (Subtree.contents f) := by
    conv_rhs => rw [← map_snd_links hlength, List.flatMap_map]
  rw [List.flatMap_append, List.flatMap_append, hold, hnew] at hperm
  rw [Subtree.contents_eq, children_finish h, show f (stage.finish below) = _ from hf _ _ _,
    List.append_assoc]
  exact (hperm.trans List.perm_append_comm).append_left _

/-- At several places. -/
theorem perm_finishAll (hf : Local f) {jobs : List Job} {stages : List Stage}
    (h : List.Forall₂ (fun job stage => ∃ i, job.Yields shape d points i stage) jobs stages)
    {below : List Subtree} (hlength : below.length = (stages.flatMap Stage.jobs).length) :
    ((finishAll stages below).flatMap (Subtree.contents f) ++
        (stages.flatMap Stage.jobs).flatMap (Job.contents f)).Perm
      (stages.flatMap (fun s => f ⟨s.slot, s.node⟩) ++
        ((jobs.flatMap fun job => job.kids.flatMap fun x => x.2.contents f) ++
          below.flatMap (Subtree.contents f))) := by
  -- induction on the places served; each takes as many finished subtrees as it sent points to
  induction h generalizing below with
  | nil =>
      obtain rfl := List.length_eq_zero_iff.1 hlength
      exact .refl _
  | @cons job stage jobs stages hy hrest ih =>
      obtain ⟨i, hy⟩ := hy
      have hjobs : stage.jobs.length = stage.onward.length := List.length_map _
      rw [List.flatMap_cons, List.length_append, hjobs] at hlength
      have htake : (below.take stage.onward.length).length = stage.onward.length := by
        rw [List.length_take]
        omega
      have hdrop : (below.drop stage.onward.length).length =
          (stages.flatMap Stage.jobs).length := by
        rw [List.length_drop]
        omega
      have hfirst := perm_finish hf hy htake
      have hothers := ih hdrop
      have hsplit : below.flatMap (Subtree.contents f) =
          (below.take stage.onward.length).flatMap (Subtree.contents f) ++
            (below.drop stage.onward.length).flatMap (Subtree.contents f) := by
        rw [← List.flatMap_append, List.take_append_drop]
      rw [finishAll, hsplit]
      simp only [List.flatMap_cons, List.flatMap_append]
      rw [List.perm_iff_count] at hfirst hothers ⊢
      intro a
      have h₁ := hfirst a
      have h₂ := hothers a
      simp only [List.count_append] at h₁ h₂ ⊢
      omega

end Stage

/-- A subtree that stands at a place in the end: it is sound, and it holds nothing that the place
did not hold or was not given. -/
structure Job.Settles (shape : Shape) (d : Metric) (points : Slots Point) (job : Job)
    (t : Subtree) : Prop where
  sound : t.Sound shape d points
  held : ∀ slot ∈ t.held, slot ∈ job.held

namespace Stage

variable {job : Job} {i : Intake Subtree} {stage : Stage} {below : List Subtree}

/-- What has settled under an index was routed there. -/
theorem routes_of_settles (h : job.Yields shape d points i stage)
    (hjob : job.Ready shape d points) {x : Nat × List Held} (hx : x ∈ i.onward) {t : Subtree}
    (ht : Job.Settles shape d points ⟨Keyed.get? x.1 job.kids, x.2⟩ t) {v : UInt64}
    (hv : v ∈ t.values points) : i.node.Routes shape d Held.value x.1 v := by
  obtain ⟨slot, hslot, rfl⟩ := List.mem_map.1 hv
  rcases List.mem_append.1 (ht.held slot hslot) with hslot | hslot
  · -- the point was below the child already
    cases hchild : Keyed.get? x.1 job.kids with
    | none => exact absurd hslot (by simp [Job.contents, hchild])
    | some c =>
        have hmem := Keyed.mem_of_get? hchild
        rw [← h.intake.children] at hmem
        have hnode := h.intake.node
        have hheld : slot ∈ c.held := by
          rwa [Job.contents, hchild] at hslot
        have hbelow : points.valueAt slot ∈ c.values points := List.mem_map_of_mem hheld
        cases hi : i.node with
        | leaf l => exact absurd hmem (by simp [hi, Node.children])
        | branch b =>
            rw [hi] at hmem hnode
            refine ⟨?_, Branch.Sound.routed hnode _ hmem _ hbelow⟩
            rw [Branch.Sound.fanout hnode]
            exact Branch.Sound.inRange hnode _ hmem
  · -- the point was sent there
    obtain ⟨p, hp, rfl⟩ := List.mem_map.1 hslot
    have hlook := h.looked hjob (List.mem_append_right _ (List.mem_append_left _
      (List.mem_flatMap.2 ⟨x, hx, hp⟩)))
    rw [Slots.valueAt, hlook]
    exact h.intake.routes x hx p hp

/-- The subtrees that have settled below a node are linked under the indices of their places, and
what is known of places and subtrees is known of them. -/
theorem mem_links {R : Job → Subtree → Prop} (h : job.Yields shape d points i stage)
    (hbelow : List.Forall₂ R stage.jobs below) {y : Nat × Subtree}
    (hy : y ∈ stage.links below) :
    ∃ x ∈ i.onward, x.1 = y.1 ∧ R ⟨Keyed.get? x.1 job.kids, x.2⟩ y.2 := by
  rw [jobs, h.onward, List.map_map, List.forall₂_map_left_iff, h.intake.children] at hbelow
  rw [links, h.onward, List.map_map] at hy
  generalize i.onward = onward at hbelow hy ⊢
  induction hbelow with
  | nil => exact absurd hy (by simp)
  | @cons x t onward below ht hrest ih =>
      rw [List.map_cons, List.zip_cons_cons] at hy
      rcases List.mem_cons.1 hy with rfl | hy
      · exact ⟨x, List.mem_cons_self, rfl, ht⟩
      · obtain ⟨z, hz, hzy⟩ := ih hy
        exact ⟨z, List.mem_cons_of_mem _ hz, hzy⟩

/-- A child of a place is the child of the finished node still, or what has settled where it stood
is. -/
theorem get?_children_finish {R : Job → Subtree → Prop} (h : job.Yields shape d points i stage)
    (hbelow : List.Forall₂ R stage.jobs below) {index : Nat} {child : Subtree}
    (hchild : Keyed.get? index job.kids = some child) :
    Keyed.get? index (stage.finish below).children = some child ∨
      ∃ next t, R next t ∧ next.site = some child ∧
        Keyed.get? index (stage.finish below).children = some t := by
  have hnodup := nodup_links h (hbelow.length_eq.symm.trans (List.length_map _))
  rw [children_finish h]
  rcases Keyed.get?_setAll (ascending_kids h) hnodup hchild with hsame | ⟨t, ht, hget⟩
  · exact .inl hsame
  · obtain ⟨x, -, rfl, hR⟩ := mem_links h hbelow ht
    exact .inr ⟨_, t, hR, hchild, hget⟩

theorem length_below {R : Job → Subtree → Prop} (h : List.Forall₂ R stage.jobs below) :
    below.length = stage.onward.length :=
  h.length_eq.symm.trans (List.length_map _)

/-- **One place settles** when the places below it have settled. -/
theorem settles_finish (h : job.Yields shape d points i stage) (hjob : job.Ready shape d points)
    (hbelow : List.Forall₂ (Job.Settles shape d points) stage.jobs below) :
    job.Settles shape d points (stage.finish below) := by
  have hlength := length_below hbelow
  refine ⟨Subtree.sound_iff.2 ⟨?_, fun y hy => ?_⟩, fun slot hslot => ?_⟩
  · -- the node itself, first with its points at hand
    have hlinked : (i.node.relink (stage.links below)).Sound shape d Held.value
        (Subtree.values points) := by
      refine h.intake.node.relink (nodup_links h hlength) (fun y hy => ?_) fun y hy v hv => ?_
      · obtain ⟨x, hx, hxy, -⟩ := mem_links h hbelow hy
        obtain ⟨p, hp⟩ := List.exists_mem_of_ne_nil _ (h.intake.nonempty x hx)
        exact ⟨p.value, hxy ▸ h.intake.routes x hx p hp⟩
      · obtain ⟨x, hx, hxy, ht⟩ := mem_links h hbelow hy
        exact hxy ▸ routes_of_settles h hjob hx ht hv
    have hmap : (stage.finish below).node =
        (i.node.relink (stage.links below)).mapPoints Held.slot := by
      rw [Node.mapPoints_relink, ← h.node]
      rfl
    rw [hmap]
    refine hlinked.mapPoints (fun p hp => ?_) fun _ _ _ hv => hv
    rw [Node.points_relink] at hp
    rw [Slots.valueAt, h.looked hjob (List.mem_append_left _ hp)]
  · -- a child has settled in this round, or stood there before and was sent nothing
    rcases (mem_children_finish h hlength).1 hy with hy | ⟨hy, -⟩
    · obtain ⟨x, hx, hxy, ht⟩ := mem_links h hbelow hy
      exact ht.sound
    · exact Job.kids_sound hjob hy
  · -- what the subtree holds, the node kept, a child held before, or a child holds now
    have hmem := (perm_finish local_own h hlength).mem_iff.1 (List.mem_append_left _ hslot)
    rcases List.mem_append.1 hmem with hmem | hmem
    · exact h.mem_held_of_passed (List.mem_append_left _ hmem)
    · rcases List.mem_append.1 hmem with hmem | hmem
      · refine List.mem_append_left _ ?_
        rw [Job.contents_eq]
        exact List.mem_append_right _ hmem
      · obtain ⟨t, ht, hslot⟩ := List.mem_flatMap.1 hmem
        obtain ⟨next, hnext, hsettles⟩ := exists_of_forall₂ hbelow ht
        exact h.mem_held_of_next hnext (hsettles.held slot hslot)

/-- What holds of every place of a round, once it holds of the places below. -/
theorem forall₂_finishAll {Serves : Job → Stage → Prop} {R : Job → Subtree → Prop}
    {jobs : List Job} {stages : List Stage} {below : List Subtree}
    (hstep : ∀ job stage below, Serves job stage → List.Forall₂ R stage.jobs below →
      R job (stage.finish below))
    (h : List.Forall₂ Serves jobs stages)
    (hbelow : List.Forall₂ R (stages.flatMap Stage.jobs) below) :
    List.Forall₂ R jobs (finishAll stages below) := by
  induction h generalizing below with
  | nil => exact .nil
  | @cons job stage jobs stages hserves hrest ih =>
      have hlength : stage.jobs.length = stage.onward.length := List.length_map _
      have htake := List.forall₂_take stage.onward.length hbelow
      have hdrop := List.forall₂_drop stage.onward.length hbelow
      rw [List.flatMap_cons, List.take_left' hlength] at htake
      rw [List.flatMap_cons, List.drop_left' hlength] at hdrop
      exact .cons (hstep job stage _ hserves htake) (ih hdrop)

end Stage

end finish

/-! ### All rounds -/

/-- What a placement does: a sound subtree for each place, and points and slots conserved. -/
structure Settlement (shape : Shape) (d : Metric) (points : Slots Point) (jobs : List Job)
    (placed : List Subtree) (minted gone dead : List Nat) : Prop where
  each : List.Forall₂ (Job.Settles shape d points) jobs placed
  held : (placed.flatMap Subtree.held ++ dead).Perm (jobs.flatMap Job.held)
  slots : (placed.flatMap Subtree.slots ++ gone).Perm
    (jobs.flatMap (Job.contents fun t => [t.slot]) ++ minted)
  dead : ∀ slot ∈ dead, (points.heldAt slot).live = false

namespace Settlement

/-- The contents of places, from their nodes and what is below these. -/
theorem perm_contents (f : Subtree → List Nat) (jobs : List Job) :
    ((jobs.flatMap fun job => job.site.elim [] f) ++
      jobs.flatMap fun job => job.kids.flatMap fun x => x.2.contents f).Perm
        (jobs.flatMap (Job.contents f)) := by
  refine (List.flatMap_append_perm jobs _ _).trans (.of_eq ?_)
  exact List.flatMap_congr fun job _ => (Job.contents_eq f job).symm

/-- A round, followed by the settlement of the places below. -/
theorem of_round {jobs : List Job} {stages : List Stage} {below : List Subtree}
    {minted minted' gone gone' dead dead' : List Nat}
    (hready : ∀ job ∈ jobs, job.Ready shape d points)
    (h : Job.Round shape d points jobs stages minted gone dead)
    (hbelow : Settlement shape d points (stages.flatMap Stage.jobs) below minted' gone' dead') :
    Settlement shape d points jobs (Stage.finishAll stages below) (minted' ++ minted)
      (gone ++ gone') (dead ++ dead') where
  each := by
    refine Stage.forall₂_finishAll ?_ ((List.forall₂_and_left _ _).2 ⟨hready, h.each⟩) hbelow.each
    rintro job stage below ⟨hjob, i, hy⟩ hsettled
    exact Stage.settles_finish hy hjob hsettled
  held := by
    have hfinish : ((Stage.finishAll stages below).flatMap Subtree.held ++
        (stages.flatMap Stage.jobs).flatMap (Job.contents Subtree.own)).Perm
          (stages.flatMap (fun s => s.node.points) ++
            ((jobs.flatMap fun job => job.kids.flatMap fun x => x.2.contents Subtree.own) ++
              below.flatMap Subtree.held)) :=
      Stage.perm_finishAll local_own h.each hbelow.each.length_eq.symm
    have hjobs : (jobs.flatMap Job.own ++
        jobs.flatMap fun job => job.kids.flatMap fun x => x.2.contents Subtree.own).Perm
          (jobs.flatMap (Job.contents Subtree.own)) := perm_contents Subtree.own jobs
    have hheld : (jobs.flatMap (Job.contents Subtree.own) ++ jobs.flatMap Job.sent).Perm
        (jobs.flatMap Job.held) := List.flatMap_append_perm _ _ _
    have hnext : ((stages.flatMap Stage.jobs).flatMap (Job.contents Subtree.own) ++
        (stages.flatMap Stage.jobs).flatMap Job.sent).Perm
          ((stages.flatMap Stage.jobs).flatMap Job.held) := List.flatMap_append_perm _ _ _
    have hround := h.conserved
    have hrest := hbelow.held
    -- what stood at the places below cancels: it is part of what they held
    rw [List.perm_iff_count] at *
    intro slot
    have h₁ := hfinish slot
    have h₂ := hround slot
    have h₃ := hrest slot
    have h₄ := hjobs slot
    have h₅ := hheld slot
    have h₆ := hnext slot
    simp only [List.count_append] at h₁ h₂ h₃ h₄ h₅ h₆ ⊢
    omega
  slots := by
    have hfinish : ((Stage.finishAll stages below).flatMap Subtree.slots ++
        (stages.flatMap Stage.jobs).flatMap (Job.contents fun t => [t.slot])).Perm
          ((stages.flatMap fun s => [s.slot]) ++
            ((jobs.flatMap fun job => job.kids.flatMap fun x => x.2.slots) ++
              below.flatMap Subtree.slots)) :=
      Stage.perm_finishAll local_slot h.each hbelow.each.length_eq.symm
    have hjobs := perm_contents (fun t => [t.slot]) jobs
    have hstanding : (jobs.flatMap fun job => (job.site.map Subtree.slot).toList) =
        jobs.flatMap fun job => job.site.elim [] fun t => [t.slot] :=
      List.flatMap_congr fun job _ => by cases job.site <;> rfl
    have hround := h.slots
    have hrest := hbelow.slots
    rw [hstanding, List.map_eq_flatMap] at hround
    rw [List.perm_iff_count] at *
    intro slot
    have h₁ := hfinish slot
    have h₂ := hround slot
    have h₃ := hrest slot
    have h₄ := hjobs slot
    simp only [List.count_append] at h₁ h₂ h₃ h₄ ⊢
    simp only [Subtree.slots] at *
    omega
  dead slot hslot := by
    rcases List.mem_append.1 hslot with hslot | hslot
    · exact h.dead slot hslot
    · exact hbelow.dead slot hslot

end Settlement

section below

variable {jobs : List Job} {stages : List Stage} {minted gone dead : List Nat}

/-- A place below a round is below one of its places. -/
theorem Job.Round.exists_yields (h : Job.Round shape d points jobs stages minted gone dead)
    {next : Job} (hnext : next ∈ stages.flatMap Stage.jobs) :
    ∃ job ∈ jobs, ∃ i stage, job.Yields shape d points i stage ∧ next ∈ stage.jobs := by
  obtain ⟨stage, hstage, hnext⟩ := List.mem_flatMap.1 hnext
  obtain ⟨job, hjob, i, hy⟩ := exists_of_forall₂ h.each hstage
  exact ⟨job, hjob, i, stage, hy, hnext⟩

theorem Job.Round.ready_below (h : Job.Round shape d points jobs stages minted gone dead)
    (hready : ∀ job ∈ jobs, job.Ready shape d points) :
    ∀ next ∈ stages.flatMap Stage.jobs, next.Ready shape d points := by
  intro next hnext
  obtain ⟨job, hjob, i, stage, hy, hnext⟩ := h.exists_yields hnext
  exact hy.ready (hready job hjob) hnext

theorem Job.Round.weight_below (h : Job.Round shape d points jobs stages minted gone dead)
    (hshape : shape.Sound) {rounds : Nat} (hrounds : ∀ job ∈ jobs, job.weight < rounds + 1) :
    ∀ next ∈ stages.flatMap Stage.jobs, next.weight < rounds := by
  intro next hnext
  obtain ⟨job, hjob, i, stage, hy, hnext⟩ := h.exists_yields hnext
  have hlt := hy.weight_lt hshape hnext
  have := hrounds job hjob
  omega

end below

theorem settle_of_runAll {rounds : Nat} {job : Job} {jobs : List Job} {stages : List Stage}
    {p p₁ : Progress} (hrun : Job.runAll shape d points p (job :: jobs) = .ok (stages, p₁)) :
    settle shape d points (rounds + 1) p (job :: jobs) = do
      let r ← settle shape d points rounds p₁ (stages.flatMap Stage.jobs)
      return (Stage.finishAll stages r.1, r.2) := by
  simp only [settle, hrun, ok_bind]
  rfl

theorem settle_nil (rounds : Nat) (p : Progress) :
    settle shape d points rounds p [] = .ok ([], p) := by
  cases rounds <;> rfl

theorem settlement_nil : Settlement shape d points [] [] [] [] [] where
  each := .nil
  held := .refl _
  slots := .refl _
  dead := by simp

/-- **All rounds.**  A node refuses its points, or every place settles; there are enough rounds when
there are more than any place weighs. -/
theorem settle_cases (hshape : shape.Sound) {rounds : Nat} {jobs : List Job} (p : Progress)
    (hready : ∀ job ∈ jobs, job.Ready shape d points)
    (hrounds : ∀ job ∈ jobs, job.weight < rounds) :
    (∃ fault created, settle shape d points rounds p jobs = .error (.refused fault created)) ∨
      ∃ placed p' minted gone dead, settle shape d points rounds p jobs = .ok (placed, p') ∧
        p.Advances p' minted gone dead ∧
        Settlement shape d points jobs placed minted gone dead := by
  -- induction on the rounds, which bound the weight of every place that is to be served
  induction rounds generalizing p jobs with
  | zero =>
      cases jobs with
      | nil => exact .inr ⟨[], p, [], [], [], settle_nil 0 p, .refl p, settlement_nil⟩
      | cons job jobs => exact absurd (hrounds job List.mem_cons_self) (Nat.not_lt_zero _)
  | succ rounds ih =>
      cases jobs with
      | nil => exact .inr ⟨[], p, [], [], [], settle_nil _ p, .refl p, settlement_nil⟩
      | cons job jobs =>
          rcases Job.runAll_cases hready hshape p with ⟨fault, created, hrun⟩ |
            ⟨stages, p₁, minted, gone, dead, hrun, hadv, hround⟩
          · exact .inl ⟨fault, created, by simp [settle, hrun]⟩
          · rw [settle_of_runAll hrun]
            rcases ih p₁ (hround.ready_below hready)
                (hround.weight_below hshape hrounds) with ⟨fault, created, hrest⟩ |
              ⟨placed, p₂, minted', gone', dead', hrest, hadv', hsettled⟩
            · exact .inl ⟨fault, created, by rw [hrest, error_bind]⟩
            · exact .inr ⟨_, p₂, _, _, _, by rw [hrest]; rfl, hadv.trans hadv',
                .of_round hready hround hsettled⟩

/-- **With a sortable metric every batch settles.** -/
theorem exists_settle (hshape : shape.Sound) (hd : d.Sortable) {rounds : Nat} {jobs : List Job}
    (p : Progress) (hready : ∀ job ∈ jobs, job.Ready shape d points)
    (hrounds : ∀ job ∈ jobs, job.weight < rounds) :
    ∃ r, settle shape d points rounds p jobs = .ok r := by
  induction rounds generalizing p jobs with
  | zero =>
      cases jobs with
      | nil => exact ⟨_, settle_nil 0 p⟩
      | cons job jobs => exact absurd (hrounds job List.mem_cons_self) (Nat.not_lt_zero _)
  | succ rounds ih =>
      cases jobs with
      | nil => exact ⟨_, settle_nil _ p⟩
      | cons job jobs =>
          obtain ⟨r, hr⟩ := Job.exists_runAll hready hshape hd p
          rcases Job.runAll_cases hready hshape p with ⟨fault, created, hrun⟩ |
            ⟨stages, p₁, minted, gone, dead, hrun, hadv, hround⟩
          · exact absurd (hr.symm.trans hrun) (by simp)
          · obtain ⟨⟨placed, p₂⟩, hrest⟩ := ih p₁ (hround.ready_below hready)
              (hround.weight_below hshape hrounds)
            exact ⟨(Stage.finishAll stages placed, p₂), by
              rw [settle_of_runAll hrun, hrest]; rfl⟩

/-! ### A whole batch -/

section place

variable {root : Option Subtree} {batch : List Held}

/-- A batch for the root is in order when its points and those of the tree are all that the store
holds. -/
theorem ready_batch (hne : batch ≠ []) (hlook : ∀ h ∈ batch, points.heldAt h.slot = h)
    (hroot : ∀ t ∈ root, t.Sound shape d points)
    (hpoints : points.Holds (Job.held ⟨root, batch⟩)) :
    Job.Ready shape d points ⟨root, batch⟩ where
  looked := hlook
  nonempty := hne
  site := hroot
  occupied slot hslot := (hpoints.occupied slot).2 (List.mem_append_left _ hslot)

/-- There are enough rounds for a batch. -/
theorem weight_lt_enoughRounds (hpoints : points.Holds (Job.held ⟨root, batch⟩)) :
    Job.weight ⟨root, batch⟩ < enoughRounds points root := by
  have hsize := hpoints.size
  cases root with
  | none =>
      change 0 + _ < 0 + points.size + 1
      omega
  | some t =>
      change t.height + _ < t.height + points.size + 1
      omega

/-- **A whole batch.**  A node refuses its points, or the new root settles. -/
theorem place_cases (hshape : shape.Sound) (labels : Slots Unit) (hne : batch ≠ [])
    (hlook : ∀ h ∈ batch, points.heldAt h.slot = h)
    (hroot : ∀ t ∈ root, t.Sound shape d points)
    (hpoints : points.Holds (Job.held ⟨root, batch⟩)) :
    (∃ fault created, place shape d points labels root batch = .error (.refused fault created)) ∨
      ∃ t p minted gone dead, place shape d points labels root batch = .ok (some t, p) ∧
        Progress.Advances { labels } p minted gone dead ∧
        Settlement shape d points [⟨root, batch⟩] [t] minted gone dead := by
  rcases settle_cases hshape { labels }
      (List.forall_mem_singleton.2 (ready_batch hne hlook hroot hpoints))
      (List.forall_mem_singleton.2 (weight_lt_enoughRounds hpoints)) with
    ⟨fault, created, hsettle⟩ | ⟨placed, p, minted, gone, dead, hsettle, hadv, hsettled⟩
  · exact .inl ⟨fault, created, by rw [place, hsettle, error_bind]⟩
  · obtain ⟨t, rest, -, hrest, rfl⟩ := List.forall₂_cons_left_iff.1 hsettled.each
    obtain rfl := List.forall₂_nil_left_iff.1 hrest
    exact .inr ⟨t, p, minted, gone, dead, by rw [place, hsettle]; rfl, hadv, hsettled⟩

theorem exists_place (hshape : shape.Sound) (hd : d.Sortable) (labels : Slots Unit)
    (hne : batch ≠ []) (hlook : ∀ h ∈ batch, points.heldAt h.slot = h)
    (hroot : ∀ t ∈ root, t.Sound shape d points)
    (hpoints : points.Holds (Job.held ⟨root, batch⟩)) :
    ∃ r, place shape d points labels root batch = .ok r := by
  obtain ⟨⟨placed, p⟩, hsettle⟩ := exists_settle hshape hd { labels }
    (List.forall_mem_singleton.2 (ready_batch hne hlook hroot hpoints))
    (List.forall_mem_singleton.2 (weight_lt_enoughRounds hpoints))
  exact ⟨(placed.head?, p), by rw [place, hsettle]; rfl⟩

end place

end Vantage
