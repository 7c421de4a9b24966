/-
**Branches are for good.**

Once a branch stands at the end of a path of child indices, it stands there for as long as the tree
is not given up: under the same slot, with the same vantage points, with every cut that was frozen
and with every child that was linked. Its vantage points keep their slots, ids and fingerprints,
even when they are deleted. A leaf stays where it is until a branch takes its place. Failed flushes
are no exception, for they leave the nodes as they were.

Main definitions:

* `Branch.Grows` — a branch later on;
* `Subtree.Becomes`, `Subtree.Endures` — what stands at a path later on, and at all paths;
* `Tree.Endures` — the nodes of a tree are still there in a later one.

Main results:

* `Job.Served.becomes` — a served place keeps its branch, and its leaf unless a branch replaces it;
* `Subtree.endures_of_place` — **a placement keeps what stands at every path**;
* `Tree.Performs.endures`, `Tree.Reachable.endures_run` — **so does every operation but one, and so
  does every run** that does not give the tree up.
-/

import Vantage.Proofs.Accounting
import Vantage.Proofs.Atomicity

set_option relaxedAutoImplicit false
set_option autoImplicit false

namespace Vantage

variable {shape : Shape} {d : Metric} {points : Slots Point}

/-! ### Branches that grow -/

/-- Level by level, cuts that are frozen stay frozen. -/
theorem Level.extends_trans {ls₁ ls₂ ls₃ : List Level} (h₁ : List.Forall₂ Extends ls₁ ls₂)
    (h₂ : List.Forall₂ Extends ls₂ ls₃) : List.Forall₂ Extends ls₁ ls₃ := by
  induction h₁ generalizing ls₃ with
  | nil => exact h₂
  | cons hfirst _ ih =>
      obtain ⟨level, rest, hlevel, hrest, rfl⟩ := List.forall₂_cons_left_iff.1 h₂
      exact .cons (hfirst.trans hlevel) (ih hrest)

/-- A branch later on: its vantage points are the same, the cuts that it had are frozen, and where a
child was linked one is linked. -/
structure Branch.Grows (b b' : Branch Nat Subtree) : Prop where
  vantage : b'.vantage = b.vantage
  levels : List.Forall₂ Level.Extends b.levels b'.levels
  linked : ∀ index child, Keyed.get? index b.children = some child →
    ∃ child', Keyed.get? index b'.children = some child'

namespace Branch.Grows

theorem refl (b : Branch Nat Subtree) : b.Grows b where
  vantage := rfl
  levels := List.forall₂_same.2 fun level _ => .refl level
  linked _ child h := ⟨child, h⟩

theorem trans {b₁ b₂ b₃ : Branch Nat Subtree} (h₁ : b₁.Grows b₂) (h₂ : b₂.Grows b₃) :
    b₁.Grows b₃ where
  vantage := h₂.vantage.trans h₁.vantage
  levels := Level.extends_trans h₁.levels h₂.levels
  linked index child h := by
    obtain ⟨child', h'⟩ := h₁.linked index child h
    exact h₂.linked index child' h'

end Branch.Grows

/-! ### What stands at a path -/

namespace Subtree

/-- What a node has become: a leaf is under its slot still, unless a branch has replaced it, and a
branch is under its slot still and has grown. -/
structure Becomes (s s' : Subtree) : Prop where
  leaf : s.node.isLeaf = true → s'.node.isLeaf = true → s'.slot = s.slot
  branch : ∀ b, s.node = .branch b → s'.slot = s.slot ∧ ∃ b', s'.node = .branch b' ∧ b.Grows b'

namespace Becomes

theorem refl (s : Subtree) : s.Becomes s where
  leaf _ _ := rfl
  branch b hb := ⟨rfl, b, hb, .refl b⟩

end Becomes

/-- At the end of every path that led to a node stands what it has become. -/
def Endures (t t' : Subtree) : Prop :=
  ∀ path s, t.follow? path = some s → ∃ s', t'.follow? path = some s' ∧ s.Becomes s'

theorem Endures.refl (t : Subtree) : t.Endures t := fun _ s hs => ⟨s, hs, .refl s⟩

end Subtree

/-! ### Places that have been served -/

namespace Job.Served

variable {job : Job} {i : Intake Subtree} {stage : Stage} {old : Subtree}

/-- The node that stands at a place takes the points that are handed to it. -/
theorem absorb_eq (h : job.Served shape d points i stage) (hsite : job.site = some old) :
    (old.node.mapPoints points.heldAt).absorb shape d job.points = .ok i := by
  have hattempt := h.attempt
  rwa [Job.attempt, hsite] at hattempt

/-- A leaf that stays a leaf is not a new node. -/
theorem stays_of_leaf (h : job.Served shape d points i stage) (hshape : shape.Sound)
    (hsite : job.site = some old) (hold : old.node.isLeaf = true)
    (hleaf : i.node.isLeaf = true) : i.fresh = false := by
  have hsound := Ready.sound_looked (h.ready.site old hsite)
  have habsorb := h.absorb_eq hsite
  cases hnode : old.node with
  | branch b => simp [hnode, Node.isLeaf] at hold
  | leaf l =>
      rw [hnode] at hsound habsorb
      rcases Leaf.absorb_cases (Subtree.values points) hshape hsound.1 h.ready.nonempty with
        ⟨i', hi', -, hfresh, -⟩ | ⟨b, rest, dead, -, -, -, -, -, -, -, heq⟩
      · obtain rfl := Except.ok.inj (habsorb.symm.trans hi')
        exact hfresh
      · obtain ⟨r, -, hok⟩ := bind_eq_ok.1 (heq.symm.trans habsorb)
        obtain rfl := Except.ok.inj hok
        simp [Node.isLeaf] at hleaf

/-- A branch stays: it is not a new node, and it gains nothing but cuts. -/
theorem branch (h : job.Served shape d points i stage) (hshape : shape.Sound)
    (hsite : job.site = some old) {b : Branch Nat Subtree} (hb : old.node = .branch b) :
    i.fresh = false ∧ ∃ b', stage.node = .branch b' ∧ b'.vantage = b.vantage ∧
      List.Forall₂ Level.Extends b.levels b'.levels := by
  have hsound := Ready.sound_looked (h.ready.site old hsite)
  have habsorb := h.absorb_eq hsite
  rw [hb] at hsound habsorb
  obtain ⟨⟨b', onward⟩, hcollate, hok⟩ := bind_eq_ok.1 habsorb
  obtain rfl := Except.ok.inj hok
  rw [Branch.absorb_of_full (Branch.Sound.vantage hsound)] at hcollate
  obtain ⟨⟨-, hvantage, -, hlevels⟩, -⟩ := Branch.sound_collate hshape hsound hcollate
  refine ⟨rfl, b'.mapPoints Held.slot, h.yields.node, ?_, hlevels⟩
  -- looking the vantage points up and taking their slots again changes nothing
  rw [Branch.mapPoints, hvantage, Branch.mapPoints, List.map_map,
    show Held.slot ∘ points.heldAt = id from rfl, List.map_id]

/-- **A served place keeps its branch**, and its leaf unless a branch replaces it. -/
theorem becomes {R : Job → Subtree → Prop} {below : List Subtree}
    (h : job.Served shape d points i stage) (hshape : shape.Sound)
    (hbelow : List.Forall₂ R stage.jobs below) (hsite : job.site = some old) :
    old.Becomes (stage.finish below) where
  leaf hold hleaf := by
    have hleaf' : i.node.isLeaf = true := by
      have hnode : (stage.finish below).node = stage.node.relink (stage.links below) := rfl
      rwa [hnode, Node.isLeaf_relink, h.yields.node, Node.isLeaf_mapPoints] at hleaf
    exact h.slot old hsite (h.stays_of_leaf hshape hsite hold hleaf')
  branch b hb := by
    obtain ⟨hfresh, b', hb', hvantage, hlevels⟩ := h.branch hshape hsite hb
    have hnode : (stage.finish below).node = (Node.branch b').relink (stage.links below) := by
      rw [← hb']
      rfl
    rw [Node.relink_branch] at hnode
    refine ⟨h.slot old hsite hfresh, _, hnode, hvantage, hlevels, fun index child hchild => ?_⟩
    have hkids : Keyed.get? index job.kids = some child := by
      rw [Job.kids, hsite, Option.elim_some, Subtree.children, hb]
      exact hchild
    have hchildren := Stage.get?_children_finish h.yields hbelow hkids
    rw [Subtree.children, hnode] at hchildren
    rcases hchildren with hsame | ⟨-, t, -, -, hget⟩
    · exact ⟨child, hsame⟩
    · exact ⟨t, hget⟩

end Job.Served

/-- **A placement keeps what stands at every path.** -/
theorem Subtree.endures_of_place (hshape : shape.Sound) {labels : Slots Unit} {old t : Subtree}
    {batch : List Held} {p : Progress} (hready : Job.Ready shape d points ⟨some old, batch⟩)
    (h : place shape d points labels (some old) batch = .ok (some t, p)) : old.Endures t := by
  -- induction over the placement: below a served place, the places that were sent points endure
  refine place_induction (R := fun job t => ∀ old, job.site = some old → old.Endures t) ?_ hshape
    hready h old rfl
  intro job i stage below hserved hbelow old hsite path s hs
  cases path with
  | nil =>
      obtain rfl := Option.some.inj hs
      exact ⟨_, rfl, hserved.becomes hshape hbelow hsite⟩
  | cons index path =>
      obtain ⟨child, hchild, hs⟩ := follow?_cons_eq_some.1 hs
      have hkids : Keyed.get? index job.kids = some child := by
        rw [Job.kids, hsite]
        exact hchild
      rcases Stage.get?_children_finish hserved.yields hbelow hkids with
        hsame | ⟨next, t, hendures, hnext, hget⟩
      · exact ⟨s, follow?_cons_eq_some.2 ⟨child, hsame, hs⟩, .refl s⟩
      · obtain ⟨s', hs', hbecomes⟩ := hendures child hnext path s hs
        exact ⟨s', follow?_cons_eq_some.2 ⟨t, hget, hs'⟩, hbecomes⟩

/-! ### Trees -/

namespace Tree

variable {t t₁ t₂ t₃ t' : Tree} {metric : Metric}

/-- **The nodes of a tree are still there in a later one**, path by path. -/
structure Endures (t t' : Tree) : Prop where
  /-- A tree with a root still has one. -/
  root : t.root.isSome = true → t'.root.isSome = true
  /-- Where a leaf stood, the same slot is a leaf or a branch stands. -/
  leaf : ∀ path s, t.follow? path = some s → s.node.isLeaf = true →
    ∃ s', t'.follow? path = some s' ∧ (s'.node.isLeaf = true → s'.slot = s.slot)
  /-- Where a branch stood, the same slot is a branch, and has grown. -/
  branch : ∀ path s b, t.follow? path = some s → s.node = .branch b →
    ∃ s' b', t'.follow? path = some s' ∧ s'.slot = s.slot ∧ s'.node = .branch b' ∧ b.Grows b'
  /-- The vantage points of branches are still points of their ids with their fingerprints. -/
  vantage : ∀ path s b, t.follow? path = some s → s.node = .branch b → ∀ slot ∈ b.vantage,
    ∃ p p', t.points.get? slot = some p ∧ t'.points.get? slot = some p' ∧ p'.entry = p.entry

/-- A point of the node at the end of a path is held. -/
theorem mem_held_of_follow? {path : List Nat} {s : Subtree} (hs : t.follow? path = some s)
    {slot : Nat} (hslot : slot ∈ s.node.points) : slot ∈ t.held := by
  obtain ⟨root, hroot, hs⟩ := Option.bind_eq_some_iff.1 hs
  rw [held, hroot]
  exact Subtree.mem_held (Subtree.mem_all_of_follow? hs) hslot

namespace Endures

/-- The nodes of a tree are still there when its root endures and the points that both trees hold
are the same but for whether they are live. -/
theorem of_root (hroot : ∀ root ∈ t.root, ∃ root', t'.root = some root' ∧ root.Endures root')
    (hpoints : ∀ slot ∈ t.held, slot ∈ t'.held → ∃ p p', t.points.get? slot = some p ∧
      t'.points.get? slot = some p' ∧ p'.entry = p.entry) : t.Endures t' := by
  have hnodes : ∀ path s, t.follow? path = some s →
      ∃ s', t'.follow? path = some s' ∧ s.Becomes s' := by
    intro path s hs
    obtain ⟨root, hr, hs⟩ := Option.bind_eq_some_iff.1 hs
    obtain ⟨root', hr', hendures⟩ := hroot root hr
    obtain ⟨s', hs', hbecomes⟩ := hendures path s hs
    exact ⟨s', Option.bind_eq_some_iff.2 ⟨root', hr', hs'⟩, hbecomes⟩
  refine ⟨fun hsome => ?_, fun path s hs hleaf => ?_, fun path s b hs hb => ?_,
    fun path s b hs hb slot hslot => ?_⟩
  · obtain ⟨root, hr⟩ := Option.isSome_iff_exists.1 hsome
    obtain ⟨root', hr', -⟩ := hroot root hr
    rw [hr']
    rfl
  · obtain ⟨s', hs', hbecomes⟩ := hnodes path s hs
    exact ⟨s', hs', hbecomes.leaf hleaf⟩
  · obtain ⟨s', hs', hbecomes⟩ := hnodes path s hs
    obtain ⟨hslot, b', hb', hgrows⟩ := hbecomes.branch b hb
    exact ⟨s', b', hs', hslot, hb', hgrows⟩
  · -- the branch holds the point in both trees
    obtain ⟨s', hs', hbecomes⟩ := hnodes path s hs
    obtain ⟨-, b', hb', hgrows⟩ := hbecomes.branch b hb
    refine hpoints slot (mem_held_of_follow? hs ?_) (mem_held_of_follow? hs' ?_)
    · rw [hb, Branch.node_points]
      exact hslot
    · rw [hb', Branch.node_points, hgrows.vantage]
      exact hslot

theorem trans (h₁ : t₁.Endures t₂) (h₂ : t₂.Endures t₃) : t₁.Endures t₃ where
  root hsome := h₂.root (h₁.root hsome)
  leaf path s hs hleaf := by
    obtain ⟨s₂, hs₂, hslot⟩ := h₁.leaf path s hs hleaf
    cases hnode : s₂.node with
    | leaf l =>
        have hleaf₂ : s₂.node.isLeaf = true := by rw [hnode]; rfl
        obtain ⟨s₃, hs₃, hslot₃⟩ := h₂.leaf path s₂ hs₂ hleaf₂
        exact ⟨s₃, hs₃, fun hleaf₃ => (hslot₃ hleaf₃).trans (hslot hleaf₂)⟩
    | branch b =>
        obtain ⟨s₃, b₃, hs₃, -, hb₃, -⟩ := h₂.branch path s₂ b hs₂ hnode
        exact ⟨s₃, hs₃, fun hleaf₃ => by simp [hb₃, Node.isLeaf] at hleaf₃⟩
  branch path s b hs hb := by
    obtain ⟨s₂, b₂, hs₂, hslot₂, hb₂, hgrows₂⟩ := h₁.branch path s b hs hb
    obtain ⟨s₃, b₃, hs₃, hslot₃, hb₃, hgrows₃⟩ := h₂.branch path s₂ b₂ hs₂ hb₂
    exact ⟨s₃, b₃, hs₃, hslot₃.trans hslot₂, hb₃, hgrows₂.trans hgrows₃⟩
  vantage path s b hs hb slot hslot := by
    obtain ⟨s₂, b₂, hs₂, -, hb₂, hgrows₂⟩ := h₁.branch path s b hs hb
    obtain ⟨p, p₂, hp, hp₂, hentry⟩ := h₁.vantage path s b hs hb slot hslot
    obtain ⟨q, p₃, hq, hp₃, hentry₃⟩ :=
      h₂.vantage path s₂ b₂ hs₂ hb₂ slot (hgrows₂.vantage ▸ hslot)
    obtain rfl := Option.some.inj (hp₂.symm.trans hq)
    exact ⟨p, p₃, hp, hp₃, hentry₃.trans hentry⟩

end Endures

/-- When the root is the same and its points have the same entries, all nodes are there. -/
theorem Sound.endures_of_root_eq (h : t.Sound) (hroot : t'.root = t.root)
    (hentries : ∀ slot ∈ t.held,
      (t'.points.get? slot).map Point.entry = (t.points.get? slot).map Point.entry) :
    t.Endures t' := by
  refine .of_root (fun root hr => ⟨root, hroot.trans hr, .refl root⟩) fun slot hslot _ => ?_
  obtain ⟨p, hp⟩ := h.points.exists_get? (List.mem_append_left _ hslot)
  have hentry := hentries slot hslot
  rw [hp, Option.map_some] at hentry
  obtain ⟨p', hp', heq⟩ := Option.map_eq_some_iff.1 hentry
  exact ⟨p, p', hp, hp', heq⟩

theorem Keeps.endures {gone : List Int64} (hk : t.Keeps gone t') (h : t.Sound) : t.Endures t' :=
  h.endures_of_root_eq hk.root hk.entries

/-- A flush keeps all nodes, whether it succeeds or fails. -/
theorem Flushes.endures {outcome : Except Fault Unit} (hf : t.Flushes outcome t') (h : t.Sound) :
    t.Endures t' := by
  have hcases := hf.root_cases h
  cases hf with
  | rollsBack fault hok hne hsound hb => exact h.endures_of_root_eq hb.root hb.entries
  | commits hok hsound hc =>
      refine .of_root (fun old hold => ?_) fun slot _ hslot' => ?_
      · rcases hcases with hsame | ⟨root, p, hne, hroot, hplace⟩
        · exact ⟨old, hsame.trans hold, .refl old⟩
        · have hready := h.ready_batch hne
          rw [show t.root = some old from hold] at hready hplace
          exact ⟨root, hroot, Subtree.endures_of_place h.shape hready hplace⟩
      · -- a point that is held now has not been given up
        obtain ⟨p, hp⟩ := hsound.points.exists_get? (List.mem_append_left _ hslot')
        exact ⟨p, p, hc.points slot p hp, hp, rfl⟩

/-- **An operation keeps all nodes** unless it gives the tree up. -/
theorem Performs.endures {op : Op} {answer : Answer} (hp : t.Performs op t' answer) (h : t.Sound)
    (hclear : op ≠ .clear) : t.Endures t' := by
  cases hp with
  | addWaits hr _ => exact hr.keeps.endures h
  | addFlushes hr _ hf => exact (hr.keeps.endures h).trans (hf.endures (hr.sound h))
  | addBatch hr hf => exact (hr.keeps.endures h).trans (hf.endures (hr.sound h))
  | sync hf => exact hf.endures h
  | delete hd _ => exact hd.keeps.endures h
  | clear => exact absurd rfl hclear
  | lookUp | snapshot | search => exact (Keeps.refl t).endures h

/-- A run keeps all nodes unless it gives the tree up. -/
theorem Sound.endures_of_performAll {ops : List Op} {answers : List Answer} (h : t.Sound)
    (hclear : ∀ op ∈ ops, op ≠ .clear) (hok : t.performAll ops = .ok (t', answers)) :
    t.Endures t' := by
  induction ops generalizing t answers with
  | nil =>
      obtain ⟨rfl, -⟩ := Prod.mk.inj (Except.ok.inj hok)
      exact (Keeps.refl t).endures h
  | cons op rest ih =>
      obtain ⟨t₁, answer, answers', hop, hrest, -⟩ := performAll_cons_eq_ok.1 hok
      obtain ⟨hfirst, hothers⟩ := List.forall_mem_cons.1 hclear
      have hp := h.performs hop
      exact (hp.endures h hfirst).trans (ih (hp.sound h) hothers hrest)

/-- **Branches are for good.**  Whatever the metric, every run from a reachable tree is carried out,
and unless it gives the tree up all nodes are still there at its end: branches with their slots,
vantage points, cuts and children, and leaves unless branches have replaced them. -/
theorem Reachable.endures_run {ops : List Op} (h : Reachable shape metric t)
    (hclear : ∀ op ∈ ops, op ≠ .clear) :
    ∃ t' answers, t.performAll ops = .ok (t', answers) ∧ t.Endures t' := by
  have hsound := h.sound.1
  obtain ⟨t', answers, hok⟩ := hsound.exists_performAll ops
  exact ⟨t', answers, hok, hsound.endures_of_performAll hclear hok⟩

/-- A branch is kept while its vantage point is deleted, a leaf below it gives way to a branch, and
a batch that it cannot divide is dropped. -/
theorem endures_growing :
    ∃ t t' answers answers', (fresh .smallest fun a b =>
        if a = 666 ∨ b = 666 then Float.nan else hamming a b).performAll
          [.addBatch [(1, 1), (2, 2), (3, 3)]] = .ok (t, answers) ∧
      t.performAll [.delete 3, .addBatch [(4, 4), (5, 6), (6, 5), (7, 9)], .addBatch [(8, 666)]] =
        .ok (t', answers') ∧
      answers'.map Answer.fault? =
        [none, none, some (.batchRolledBack (.incompleteCollation 0 0 1) [(8, 666)])] ∧
      t.nodeCount.branches = 1 ∧ 1 < t'.nodeCount.branches ∧ t.Endures t' := by
  have hrun : ((fresh .smallest fun a b =>
      if a = 666 ∨ b = 666 then Float.nan else hamming a b).performAll
        [.addBatch [(1, 1), (2, 2), (3, 3)]]).toOption.any (fun r =>
      (r.1.performAll [.delete 3, .addBatch [(4, 4), (5, 6), (6, 5), (7, 9)],
        .addBatch [(8, 666)]]).toOption.any fun r' =>
      decide (r'.2.map Answer.fault? =
          [none, none, some (.batchRolledBack (.incompleteCollation 0 0 1) [(8, 666)])] ∧
        r.1.nodeCount.branches = 1 ∧ 1 < r'.1.nodeCount.branches)) = true := by
    decide +kernel
  obtain ⟨t, answers, hfirst, hrun⟩ := any_performAll.1 hrun
  have hreach := Reachable.performAll (.fresh Shape.smallest_sound) hfirst
  have hclear : ∀ op ∈ [Op.delete 3, .addBatch [(4, 4), (5, 6), (6, 5), (7, 9)],
      .addBatch [(8, 666)]], op ≠ .clear := by
    simp
  obtain ⟨t', answers', hlater, hendures⟩ := hreach.endures_run hclear
  rw [hlater] at hrun
  obtain ⟨hfaults, hone, hmore⟩ := of_decide_eq_true hrun
  exact ⟨t, t', answers, answers', hfirst, hlater, hfaults, hone, hmore, hendures⟩

end Tree

end Vantage
