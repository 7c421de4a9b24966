/-
**The rounds of a placement, and the depth of a tree.**

A placement goes on, round after round, for as long as points are on their way, and a leaf that
turns into a branch puts its old points on their way again. It ends all the same: each round leaves
a node with a point that it did not have to send on, or takes its points one level down. The limit
that `settle` is given is therefore never felt, and when the batch settles there have been no more
rounds than the tree has levels. The same count bounds the levels themselves, since every branch
keeps a point for each of its own levels: a tree in which no division ever separates two points is
no deeper than its vantage points make it.

Main definitions:

* `Vantage.Rounds` — the rounds of a placement without a limit, and what comes of them;
* `Tree.Settles` — a batch settles in a number of rounds.

Main results:

* `Rounds.unique` — there is one way for the rounds to go;
* `Rounds.settle_eq` — **the limit is not felt** when it is no less than the number of rounds;
* `exists_rounds` — **the rounds end**;
* `Rounds.le_height` — when places settle, the rounds are no more than the levels of one of them;
* `Subtree.Sound.levels_le` — **a tree is no deeper than its vantage points make it**;
* `Tree.Reachable.placement_ends` — all of this for the batches of reachable trees.
-/

import Vantage.Proofs.Growing
import Vantage.Tree.Census

set_option relaxedAutoImplicit false
set_option autoImplicit false

namespace Vantage

variable {shape : Shape} {d : Metric} {points : Slots Point}

/-! ### Rounds without a limit -/

/-- The rounds in which places are served, then the places below them, and so on until no points are
on their way or a round is cut short: their number, and what comes of them. -/
inductive Rounds (shape : Shape) (d : Metric) (points : Slots Point) :
    Nat → Progress → List Job → Except Halt (List Subtree × Progress) → Prop where
  /-- No points are on their way. -/
  | done (p : Progress) : Rounds shape d points 0 p [] (.ok ([], p))
  /-- A round is cut short. -/
  | halt {p : Progress} {jobs : List Job} {halt : Halt} (hne : jobs ≠ [])
      (hrun : Job.runAll shape d points p jobs = .error halt) :
      Rounds shape d points 1 p jobs (.error halt)
  /-- A round is completed, and others follow. -/
  | round {n : Nat} {p p₁ : Progress} {jobs : List Job} {stages : List Stage}
      {outcome : Except Halt (List Subtree × Progress)} (hne : jobs ≠ [])
      (hrun : Job.runAll shape d points p jobs = .ok (stages, p₁))
      (hrest : Rounds shape d points n p₁ (stages.flatMap Stage.jobs) outcome) :
      Rounds shape d points (n + 1) p jobs do
        let (below, p) ← outcome
        return (Stage.finishAll stages below, p)

namespace Rounds

variable {n n' : Nat} {p p' : Progress} {jobs : List Job}
  {outcome outcome' : Except Halt (List Subtree × Progress)} {placed : List Subtree}

/-- **There is one way for the rounds to go.** -/
theorem unique (h : Rounds shape d points n p jobs outcome)
    (h' : Rounds shape d points n' p jobs outcome') : n = n' ∧ outcome = outcome' := by
  induction h generalizing n' outcome' with
  | done p =>
      cases h' with
      | done => exact ⟨rfl, rfl⟩
      | halt hne => exact absurd rfl hne
      | round hne => exact absurd rfl hne
  | halt hne hrun =>
      cases h' with
      | done => exact absurd rfl hne
      | halt _ hrun' =>
          obtain rfl := Except.error.inj (hrun.symm.trans hrun')
          exact ⟨rfl, rfl⟩
      | round _ hrun' => exact absurd (hrun.symm.trans hrun') (by simp)
  | round hne hrun hrest ih =>
      cases h' with
      | done => exact absurd rfl hne
      | halt _ hrun' => exact absurd (hrun.symm.trans hrun') (by simp)
      | round _ hrun' hrest' =>
          obtain ⟨rfl, rfl⟩ := Prod.mk.inj (Except.ok.inj (hrun.symm.trans hrun'))
          obtain ⟨rfl, rfl⟩ := ih hrest'
          exact ⟨rfl, rfl⟩

/-- **A limit that is no less than the number of rounds is not felt.** -/
theorem settle_eq (h : Rounds shape d points n p jobs outcome) {limit : Nat} (hlimit : n ≤ limit) :
    settle shape d points limit p jobs = outcome := by
  induction h generalizing limit with
  | done p => exact settle_nil limit p
  | @halt p jobs halt hne hrun =>
      obtain ⟨limit, rfl⟩ := Nat.exists_eq_add_of_le' hlimit
      obtain ⟨job, rest, rfl⟩ := List.exists_cons_of_ne_nil hne
      simp [settle, hrun]
  | @round n p p₁ jobs stages outcome hne hrun hrest ih =>
      obtain ⟨limit, rfl⟩ := Nat.exists_eq_add_of_le' (Nat.le_of_add_left_le hlimit)
      obtain ⟨job, rest, rfl⟩ := List.exists_cons_of_ne_nil hne
      rw [settle_of_runAll hrun, ih (Nat.le_of_succ_le_succ hlimit)]

end Rounds

/-- **The rounds end**, in no more rounds than bound the weight of every place: a node refuses its
points, or all places settle. -/
theorem exists_rounds (hshape : shape.Sound) {bound : Nat} {jobs : List Job} (p : Progress)
    (hready : ∀ job ∈ jobs, job.Ready shape d points) (hbound : ∀ job ∈ jobs, job.weight < bound) :
    ∃ n outcome, n ≤ bound ∧ Rounds shape d points n p jobs outcome ∧
      ((∃ fault created, outcome = .error (.refused fault created)) ∨
        ∃ placed p', outcome = .ok (placed, p')) := by
  -- induction on the bound: the places below a round weigh less
  induction bound generalizing p jobs with
  | zero =>
      cases jobs with
      | nil => exact ⟨0, _, le_rfl, .done p, .inr ⟨[], p, rfl⟩⟩
      | cons job jobs => exact absurd (hbound job List.mem_cons_self) (Nat.not_lt_zero _)
  | succ bound ih =>
      cases jobs with
      | nil => exact ⟨0, _, Nat.zero_le _, .done p, .inr ⟨[], p, rfl⟩⟩
      | cons job jobs =>
          have hne := List.cons_ne_nil job jobs
          rcases Job.runAll_cases hready hshape p with ⟨fault, created, hrun⟩ |
            ⟨stages, p₁, minted, gone, dead, hrun, -, hround⟩
          · exact ⟨1, _, Nat.succ_le_succ (Nat.zero_le _), .halt hne hrun,
              .inl ⟨fault, created, rfl⟩⟩
          · obtain ⟨n, outcome, hn, hrounds, hcases⟩ :=
              ih p₁ (hround.ready_below hready) (hround.weight_below hshape hbound)
            refine ⟨n + 1, _, Nat.succ_le_succ hn, .round hne hrun hrounds, ?_⟩
            rcases hcases with ⟨fault, created, rfl⟩ | ⟨placed, p', rfl⟩
            · exact .inl ⟨fault, created, rfl⟩
            · exact .inr ⟨_, p', rfl⟩

/-! ### Rounds and levels -/

/-- What has settled below a round hangs from one of its nodes. -/
theorem Stage.exists_parent {jobs : List Job} {stages : List Stage} {below : List Subtree}
    (h : List.Forall₂ (fun job stage => ∃ i, job.Yields shape d points i stage) jobs stages)
    (hlength : below.length = (stages.flatMap Stage.jobs).length) {t : Subtree} (ht : t ∈ below) :
    ∃ parent ∈ finishAll stages below, ∃ x ∈ parent.children, x.2 = t := by
  induction h generalizing below with
  | nil =>
      obtain rfl := List.length_eq_zero_iff.1 hlength
      exact absurd ht (by simp)
  | @cons job stage jobs stages hy hrest ih =>
      obtain ⟨i, hy⟩ := hy
      have hjobs : stage.jobs.length = stage.onward.length := List.length_map _
      rw [List.flatMap_cons, List.length_append, hjobs] at hlength
      rw [← List.take_append_drop stage.onward.length below, List.mem_append] at ht
      rw [finishAll]
      rcases ht with ht | ht
      · have htake : (below.take stage.onward.length).length = stage.onward.length := by
          rw [List.length_take]
          omega
        rw [← map_snd_links htake] at ht
        obtain ⟨x, hx, hxt⟩ := List.mem_map.1 ht
        exact ⟨_, List.mem_cons_self, x, (mem_children_finish hy htake).2 (.inl hx), hxt⟩
      · have hdrop : (below.drop stage.onward.length).length =
            (stages.flatMap Stage.jobs).length := by
          rw [List.length_drop]
          omega
        obtain ⟨parent, hparent, hchild⟩ := ih hdrop ht
        exact ⟨parent, List.mem_cons_of_mem _ hparent, hchild⟩

namespace Subtree

theorem height_eq (t : Subtree) :
    t.height = t.children.foldr (fun x n => max x.2.height n) 0 + 1 := by
  obtain ⟨slot, node⟩ := t
  cases node with
  | leaf l => rfl
  | branch b => exact congrArg (· + 1) (heightBelow_eq b.children)

theorem height_pos (t : Subtree) : 0 < t.height := by
  rw [height_eq]
  exact Nat.succ_pos _

/-- A tree has one level, or one more than one of its children. -/
theorem height_cases (t : Subtree) :
    t.height = 1 ∨ ∃ x ∈ t.children, t.height = x.2.height + 1 := by
  rw [height_eq]
  induction t.children with
  | nil => exact .inl rfl
  | cons x rest ih =>
      rw [List.foldr_cons]
      rcases Nat.le_total (rest.foldr (fun x n => max x.2.height n) 0) x.2.height with hle | hle
      · exact .inr ⟨x, List.mem_cons_self, by rw [Nat.max_eq_left hle]⟩
      · rw [Nat.max_eq_right hle]
        rcases ih with hone | ⟨y, hy, hheight⟩
        · exact .inl hone
        · exact .inr ⟨y, List.mem_cons_of_mem _ hy, hheight⟩

/-- A tree has no more levels than nodes. -/
theorem height_le_length_slots (t : Subtree) : t.height ≤ t.slots.length := by
  induction t using induction_on with
  | step t ih =>
      have hlength : t.slots.length = 1 + (t.children.flatMap fun x => x.2.slots).length := by
        rw [slots, contents_eq, List.length_append]
        rfl
      rcases t.height_cases with hone | ⟨x, hx, hheight⟩
      · omega
      · have hbelow : x.2.slots.length ≤ (t.children.flatMap fun x => x.2.slots).length :=
          Job.length_le_flatMap (f := fun x : Nat × Subtree => x.2.slots) hx
        have := ih x hx
        omega

end Subtree

/-- When places settle, there is a subtree for each of them. -/
theorem Rounds.length_placed (hshape : shape.Sound) {n : Nat} {p p' : Progress} {jobs : List Job}
    {placed : List Subtree} (hready : ∀ job ∈ jobs, job.Ready shape d points)
    (h : Rounds shape d points n p jobs (.ok (placed, p'))) : placed.length = jobs.length :=
  (settle_induction (R := fun _ _ => True) (fun _ _ _ _ _ _ => trivial) hshape hready
    (h.settle_eq le_rfl)).length_eq.symm

/-- **There are no more rounds than levels**: when places settle, one of the subtrees that stand
there has a level for each round. -/
theorem Rounds.le_height (hshape : shape.Sound) {n : Nat} {p p' : Progress} {jobs : List Job}
    {placed : List Subtree} (hready : ∀ job ∈ jobs, job.Ready shape d points)
    (h : Rounds shape d points n p jobs (.ok (placed, p'))) :
    n = 0 ∨ ∃ t ∈ placed, n ≤ t.height := by
  generalize houtcome : (Except.ok (placed, p') : Except Halt _) = outcome at h
  induction h generalizing placed p' with
  | done => exact .inl rfl
  | halt => cases houtcome
  | @round n p p₁ jobs stages outcome hne hrun hrest ih =>
      right
      obtain ⟨⟨below, p₂⟩, rfl, hok⟩ := bind_eq_ok.1 houtcome.symm
      obtain ⟨rfl, rfl⟩ := Prod.mk.inj (Except.ok.inj hok)
      have hnext := Job.ready_below_of_runAll hshape hready hrun
      have hlength := hrest.length_placed hshape hnext
      have hyields : List.Forall₂ (fun job stage => ∃ i, job.Yields shape d points i stage)
          jobs stages :=
        (Job.served_of_runAll hshape hready hrun).imp fun _ _ ⟨i, hi⟩ => ⟨i, hi.yields⟩
      rcases ih hnext rfl with rfl | ⟨t, ht, hle⟩
      · -- the first of the places, whose subtree has a level at least
        obtain ⟨job, rest, rfl⟩ := List.exists_cons_of_ne_nil hne
        obtain ⟨stage, stages', -, -, rfl⟩ := List.forall₂_cons_left_iff.1 hyields
        exact ⟨_, List.mem_cons_self, Subtree.height_pos _⟩
      · -- a subtree with enough levels hangs from a node of this round
        obtain ⟨parent, hparent, x, hx, rfl⟩ := Stage.exists_parent hyields hlength ht
        exact ⟨parent, hparent, hle.trans_lt (Subtree.height_lt_of_child hx)⟩

/-- A node with a child is a branch, and has all its vantage points. -/
theorem Subtree.Sound.length_points_of_child {t : Subtree} (h : t.Sound shape d points)
    {x : Nat × Subtree} (hx : x ∈ t.children) : t.node.points.length = shape.levelsPerNode := by
  have hnode := h.node
  cases hn : t.node with
  | leaf l => exact absurd hx (by simp [children, hn, Node.children])
  | branch b =>
      rw [hn] at hnode
      rw [Branch.node_points, Branch.Sound.vantage hnode]

/-- **A tree is no deeper than its vantage points make it.**  On the way down to its last level each
branch keeps a point for each of its own levels, and the last node keeps one. -/
theorem Subtree.Sound.levels_le {t : Subtree} (hshape : shape.Sound)
    (h : t.Sound shape d points) :
    (t.height - 1) * shape.levelsPerNode + 1 ≤ t.held.length := by
  induction t using Subtree.induction_on with
  | step t ih =>
      have hheld : t.held.length = t.node.points.length +
          (t.children.flatMap fun x => x.2.held).length := by
        rw [held, contents_eq, List.length_append]
        rfl
      have hown := List.length_pos_of_ne_nil (h.node.points_ne_nil hshape)
      rcases t.height_cases with hone | ⟨x, hx, hheight⟩
      · rw [hone]
        omega
      · have hchild := ih x hx (h.child hx)
        have hbelow : x.2.held.length ≤ (t.children.flatMap fun x => x.2.held).length :=
          Job.length_le_flatMap (f := fun x : Nat × Subtree => x.2.held) hx
        have hvantage := h.length_points_of_child hx
        have hpos := x.2.height_pos
        rw [hheight, Nat.add_sub_cancel, hheld, hvantage]
        calc x.2.height * shape.levelsPerNode + 1
            = (x.2.height - 1 + 1) * shape.levelsPerNode + 1 := by rw [Nat.sub_add_cancel hpos]
          _ = shape.levelsPerNode + ((x.2.height - 1) * shape.levelsPerNode + 1) := by ring
          _ ≤ shape.levelsPerNode + (t.children.flatMap fun x => x.2.held).length :=
              Nat.add_le_add_left (hchild.trans hbelow) _

/-! ### Batches of a tree -/

namespace Tree

variable {t t' : Tree} {metric : Metric}

theorem length_rowCounts (t : Tree) : t.rowCounts.length = t.root.elim 0 Subtree.height := by
  unfold rowCounts
  cases t.root with
  | none => rfl
  | some root => simp [Subtree.length_rows]

/-- A point is held by one node. -/
theorem Sound.existsUnique_node (h : t.Sound) {slot : Nat} (hslot : slot ∈ t.held) :
    ∃! s, s ∈ t.nodes ∧ slot ∈ s.node.points := by
  obtain ⟨s, hs, hown⟩ := exists_node_of_mem_held hslot
  refine ⟨s, ⟨hs, hown⟩, ?_⟩
  rintro s' ⟨hs', hown'⟩
  have hnodup := t.perm_held.nodup_iff.2 (List.nodup_append'.1 h.points.nodup).1
  obtain ⟨-, hpairs⟩ := List.nodup_flatMap.1 hnodup
  have hsymm : Std.Symm fun s s' : Subtree => s.own.Disjoint s'.own := ⟨fun _ _ h => h.symm⟩
  by_contra hne
  exact hpairs.forall hs' hs hne hown' hown

/-- The batch of a tree settles in a number of rounds, and the tree that it leaves has a level for
each of them and holds every point of the batch in one node. -/
structure Settles (t : Tree) (n : Nat) (t' : Tree) : Prop where
  rounds : ∃ root p, Rounds t.shape t.metric t.swept.points n { labels := t.labels }
    [⟨t.root, t.batch⟩] (.ok ([root], p)) ∧ t' = t.swept.commit (some root) p
  rounds_le : n ≤ t'.rowCounts.length
  once : ∀ x ∈ t.batch, ∃! s, s ∈ t'.nodes ∧ x.slot ∈ s.node.points

/-- How the placement of a batch ends: it settles, or the rounds are cut short because a node
refuses its points, and the batch is dropped with the fault of that node. -/
inductive PlacementEnds (t : Tree) (n : Nat) (t' : Tree) : Except Fault Unit → Prop where
  | settled (hsettles : t.Settles n t') : PlacementEnds t n t' (.ok ())
  | refused (fault : Fault) (created : Nat)
      (hrounds : Rounds t.shape t.metric t.swept.points n { labels := t.labels }
        [⟨t.root, t.batch⟩] (.error (.refused fault created))) :
      PlacementEnds t n t' (.error (.batchRolledBack fault (t.batch.map Held.entry)))

/-- What is settled when a flush succeeds: every point of the batch is in one node. -/
theorem Flushes.existsUnique_node (hf : t.Flushes (.ok ()) t') (h : t.Sound) {x : Held}
    (hx : x ∈ t.batch) : ∃! s, s ∈ t'.nodes ∧ x.slot ∈ s.node.points := by
  cases hf with
  | commits _ hsound hc =>
      refine hsound.existsUnique_node ?_
      have hlive : x.point.live = true := (mem_batch hx).2.2
      have hmem := hsound.points.mem_of_get? ((hc.live _ _ hlive).2 (get?_of_mem_batch h hx))
      rwa [hc.arrivals, List.append_nil] at hmem

/-- **The placement of a batch ends.** -/
theorem Sound.exists_placementEnds (h : t.Sound) (hne : t.batch ≠ []) :
    ∃ n t' answer, t.flush = .ok (t', answer) ∧ t.PlacementEnds n t' answer := by
  have hready := List.forall_mem_singleton.2 (h.ready_batch hne)
  obtain ⟨n, outcome, hn, hrounds, hcases⟩ := exists_rounds h.shape { labels := t.labels } hready
    (List.forall_mem_singleton.2 (weight_lt_enoughRounds (holds_swept h)))
  have hsettle := hrounds.settle_eq hn
  obtain ⟨t', answer, hflush, hf⟩ := exists_flush h
  refine ⟨n, t', answer, hflush, ?_⟩
  rw [flush_eq h, if_neg (by simpa using hne), place, hsettle] at hflush
  rcases hcases with ⟨fault, created, rfl⟩ | ⟨placed, p, rfl⟩
  · obtain ⟨t'', -, hok⟩ := bind_eq_ok.1 hflush
    obtain ⟨rfl, rfl⟩ := Prod.mk.inj (Except.ok.inj hok)
    exact .refused fault created hrounds
  · -- one place was served, so one subtree has settled
    have hlength : placed.length = 1 := hrounds.length_placed h.shape hready
    obtain ⟨root, rfl⟩ := List.length_eq_one_iff.1 hlength
    obtain ⟨rfl, rfl⟩ := Prod.mk.inj (Except.ok.inj hflush)
    refine .settled ⟨⟨root, p, hrounds, rfl⟩, ?_, fun x hx => hf.existsUnique_node h hx⟩
    rw [length_rowCounts]
    rcases hrounds.le_height h.shape hready with rfl | ⟨t', ht', hle⟩
    · exact Nat.zero_le _
    · obtain rfl := List.mem_singleton.1 ht'
      exact hle

/-- **Placements end, and trees are not deep**, whatever the metric.  After any entries have been
registered in a reachable tree, the rounds of their placement end, in no more rounds than the tree
that they leave has levels if they settle; and a reachable tree has no more levels than its points
allow, when each branch on the way down keeps as many as it has levels of its own. -/
theorem Reachable.placement_ends (h : Reachable shape metric t) :
    t.rowCounts.length ≤ 1 + (t.held.length - 1) / shape.levelsPerNode ∧
      ∀ entries, ∃ t₁, t.registerAll entries = .ok t₁ ∧ (t₁.batch ≠ [] →
        ∃ n t' answer, t₁.flush = .ok (t', answer) ∧ t₁.PlacementEnds n t' answer) := by
  obtain ⟨hsound, rfl, rfl⟩ := h.sound
  refine ⟨?_, fun entries => ?_⟩
  · rw [length_rowCounts, held]
    cases hroot : t.root with
    | none => exact Nat.zero_le _
    | some root =>
        have hlevels := (hsound.root root hroot).levels_le hsound.shape
        have hdepth : root.height - 1 ≤ (root.held.length - 1) / t.shape.levelsPerNode :=
          (Nat.le_div_iff_mul_le hsound.shape.levelsPerNode).2 (Nat.le_sub_of_add_le hlevels)
        change root.height ≤ 1 + (root.held.length - 1) / t.shape.levelsPerNode
        omega
  · obtain ⟨t₁, hok, hr⟩ := exists_registerAll hsound entries
    exact ⟨t₁, hok, (hr.sound hsound).exists_placementEnds⟩

/-- Points that are all alike are placed one below another. -/
theorem placement_ends_alike :
    ∃ t answers t₁, (fresh .smallest hamming).performAll [.addBatch [(1, 7), (2, 7), (3, 7)]] =
        .ok (t, answers) ∧
      t.registerAll [(4, 7), (5, 7), (6, 7)] = .ok t₁ ∧ t₁.batch.length = 3 ∧
      t.rowCounts.length ≤ 1 + (t.held.length - 1) / Shape.smallest.levelsPerNode ∧
      ∃ n t' answer, t₁.flush = .ok (t', answer) ∧ t₁.PlacementEnds n t' answer ∧
        t'.rowCounts.length = 5 := by
  have hrun : ((fresh .smallest hamming).performAll
      [.addBatch [(1, 7), (2, 7), (3, 7)]]).toOption.any (fun r =>
      (r.1.registerAll [(4, 7), (5, 7), (6, 7)]).toOption.any fun t₁ =>
        decide (t₁.batch.length = 3) && t₁.flush.toOption.any fun r' =>
          decide (r'.1.rowCounts.length = 5)) = true := by
    decide +kernel
  obtain ⟨t, answers, hok, hrun⟩ := any_performAll.1 hrun
  obtain ⟨hdepth, hends⟩ := (Reachable.performAll (.fresh Shape.smallest_sound) hok).placement_ends
  obtain ⟨t₁, hregister, hends⟩ := hends [(4, 7), (5, 7), (6, 7)]
  rw [hregister] at hrun
  obtain ⟨hbatch, hflushed⟩ := Bool.and_eq_true_iff.1 hrun
  have hlength : t₁.batch.length = 3 := of_decide_eq_true hbatch
  obtain ⟨n, t', answer, hflush, hplacement⟩ := hends (List.ne_nil_of_length_pos (by omega))
  rw [hflush] at hflushed
  exact ⟨t, answers, t₁, hok, hregister, hlength, hdepth, n, t', answer, hflush, hplacement,
    of_decide_eq_true hflushed⟩

end Tree

end Vantage
