/-
**Every point lies between the cuts of its child.**

The index of a child of a branch is written with one digit for each level, the first level having
the most significant one. At every level the digits before it name a bucket, whose cuts were frozen
when the bucket first received points, and the digit of the level names the part of the bucket to
which all points of the child belong, by their distances to the vantage point of the level.

If both infinities occur as distances, a cut can be the mean of opposite infinities, which is not a
number. Such a cut compares with nothing and bounds no part from below; every other cut does.

Main definitions:

* `Shape.digitAt`, `Shape.bucketAt` — the digit of an index at a level, and the number that the
  digits before the level make up;
* `CutsSeparate`, `CutsBound` — that a distance lies between the cuts of a part, all of which are
  numbers, and what is left of this if some are not;
* `Tree.AtEachLevel` — a statement about the cuts, the digit and the distance at every level, for
  every branch, child and point below the child.

Main results:

* `Branch.places_of_routesFrom` — what a route says of one level;
* `Tree.Reachable.bounded` — **in a reachable tree every point lies between the cuts of its child**,
  and if not both infinities occur as distances, the cuts are numbers;
* `Tree.not_separated_opposite` — otherwise they need not be.
-/

import Vantage.Proofs.Accounting

set_option relaxedAutoImplicit false
set_option autoImplicit false

namespace Vantage

/-! ### Digits of an index -/

namespace Shape

/-- The digit of an index at a level. -/
def digitAt (s : Shape) (index level : Nat) : Nat :=
  index / s.branchFactor ^ (s.levelsPerNode - 1 - level) % s.branchFactor

/-- The number that the digits of an index before a level make up: that of a bucket of the level. -/
def bucketAt (s : Shape) (index level : Nat) : Nat :=
  index / s.branchFactor ^ (s.levelsPerNode - level)

end Shape

/-! ### Distances between cuts -/

/-- The cuts of a bucket are numbers in order, and a distance lies between those of a part. -/
structure CutsSeparate (parts : Nat) (cuts : List Float) (part : Nat) (gap : Float) : Prop where
  length : cuts.length = parts - 1
  isNumber : ∀ cut ∈ cuts, cut.isNaN = false
  ordered : cuts.Pairwise (· ≤ ·)
  atMost : part < parts - 1 → ∃ cut, cuts[part]? = some cut ∧ gap ≤ cut
  above : 0 < part → ∃ cut, cuts[part - 1]? = some cut ∧ cut < gap

/-- The cuts of a bucket that are numbers are in order, and a distance in a part is at most the cut
of the part and above every number among the cuts before it. In the last part it is above the last
cut, which then is a number. -/
structure CutsBound (parts : Nat) (cuts : List Float) (part : Nat) (gap : Float) : Prop where
  length : cuts.length = parts - 1
  inOrder : cuts.Pairwise InOrder
  atMost : part < parts - 1 → ∃ cut, cuts[part]? = some cut ∧ gap ≤ cut
  above : ∀ j < part, ∃ cut, cuts[j]? = some cut ∧ (cut.isNaN = false → cut < gap)
  aboveLast : part = parts - 1 → ∃ cut, cuts[parts - 2]? = some cut ∧ cut < gap

variable {parts part index : Nat} {cuts : List Float} {gap : Float}

/-- If all cuts are numbers nothing is lost. -/
theorem CutsBound.separate (h : CutsBound parts cuts part gap)
    (hnum : ∀ cut ∈ cuts, cut.isNaN = false) : CutsSeparate parts cuts part gap where
  length := h.length
  isNumber := hnum
  ordered := h.inOrder.imp_of_mem fun hx hy hxy => hxy (hnum _ hx) (hnum _ hy)
  atMost := h.atMost
  above hpart := by
    obtain ⟨cut, hcut, habove⟩ := h.above (part - 1) (by omega)
    exact ⟨cut, hcut, habove (hnum cut (List.mem_of_getElem? hcut))⟩

/-- The cuts of a sound level bound the distances in its parts. -/
theorem Level.Sound.cutsBound {d : Metric} {level : Level} {bucket : Nat}
    (h : level.Sound d parts) (hparts : parts < 2 ^ 53)
    (hcuts : Keyed.get? bucket level.frozen = some cuts) (hpart : part? cuts gap = some part) :
    CutsBound parts cuts part gap := by
  have hlength := h.length bucket cuts hcuts
  have hle := part?_lt hpart
  obtain ⟨hatMost, habove, hlast⟩ := part?_bounds hpart
  refine ⟨hlength, h.ordered hparts bucket cuts hcuts, fun hlt => ?_, fun j hj => ?_,
    fun heq => ?_⟩
  · have hlt' : part < cuts.length := by omega
    exact ⟨cuts[part], List.getElem?_eq_getElem hlt', hatMost _ (List.getElem?_eq_getElem hlt')⟩
  · have hlt : j < cuts.length := by omega
    exact ⟨cuts[j], List.getElem?_eq_getElem hlt,
      habove j hj _ (List.getElem?_eq_getElem hlt)⟩
  · obtain ⟨last, hget, hlt⟩ := hlast (by omega)
    rw [List.getLast?_eq_getElem?, hlength] at hget
    exact ⟨last, hget, hlt⟩

/-! ### Routes level by level -/

/-- What a route says of one level: the cuts of the bucket that the digits before the level name put
the point into the part that the digit of the level names. -/
theorem Branch.places_of_routesFrom {route : List (Level × Float)} {level : Level} {n : Nat}
    (h : RoutesFrom parts index route) (hn : route[n]? = some (level, gap)) :
    ∃ cuts, Keyed.get? (index / parts ^ (route.length - n)) level.frozen = some cuts ∧
      part? cuts gap = some (index / parts ^ (route.length - 1 - n) % parts) := by
  induction route generalizing n with
  | nil => cases hn
  | cons first rest ih =>
      obtain ⟨hplaces, hrest⟩ := h
      cases n with
      | zero =>
          obtain rfl := Option.some.inj hn
          obtain ⟨cuts, hcuts, hpart⟩ := hplaces
          refine ⟨cuts, ?_, hpart⟩
          rwa [Nat.div_div_eq_div_mul, Nat.pow_eq, ← pow_succ] at hcuts
      | succ n =>
          have hrest := ih hrest hn
          rw [List.length_cons]
          rwa [show rest.length + 1 - (n + 1) = rest.length - n by omega,
            show rest.length + 1 - 1 - (n + 1) = rest.length - 1 - n by omega]

namespace Tree

variable {t : Tree} {shape : Shape} {metric : Metric}

/-- At each level of each branch, for every child that is linked and every point that it or a node
below it holds, live or not: the cuts of the bucket that the digits of the child's index before the
level name have been frozen, and `P` holds of them, of the digit of the level, and of the distance
of the point to the vantage point of the level. -/
def AtEachLevel (t : Tree) (P : List Float → Nat → Float → Prop) : Prop :=
  ∀ s ∈ t.nodes, ∀ b, s.node = .branch b → ∀ index child, (index, child) ∈ b.children →
    index < t.shape.branchFactor ^ t.shape.levelsPerNode ∧
    ∀ slot ∈ child.held, ∀ n < t.shape.levelsPerNode, ∃ level vantage v p cuts,
      b.levels[n]? = some level ∧ b.vantage[n]? = some vantage ∧
      t.points.get? vantage = some v ∧ t.points.get? slot = some p ∧
      Keyed.get? (t.shape.bucketAt index n) level.frozen = some cuts ∧
      P cuts (t.shape.digitAt index n) (t.metric v.value p.value)

/-- A point that a node or a node below it holds is in its slot. -/
theorem Sound.exists_value (h : t.Sound) {s : Subtree} (hs : s ∈ t.nodes) (slot : Nat)
    (hslot : slot ∈ s.held) :
    ∃ p, t.points.get? slot = some p ∧ t.points.valueAt slot = p.value := by
  obtain ⟨root, hroot, hs⟩ := mem_nodes.1 hs
  obtain ⟨u, hu, hslot⟩ := List.mem_flatMap.1 hslot
  have hheld : slot ∈ t.held := by
    rw [held, hroot]
    exact Subtree.mem_held (Subtree.mem_all_trans hs hu) hslot
  obtain ⟨p, hp⟩ := Option.isSome_iff_exists.1
    ((h.points.occupied slot).2 (List.mem_append_left _ hheld))
  refine ⟨p, hp, ?_⟩
  rw [Slots.valueAt, Slots.heldAt_of_get? _ hp]
  rfl

/-- What holds of sound levels and distances in their parts holds at each level of a sound tree. -/
theorem Sound.atEachLevel (h : t.Sound) {P : List Float → Nat → Float → Prop}
    (hP : ∀ level : Level, level.Sound t.metric t.shape.branchFactor → ∀ bucket cuts part gap,
      Keyed.get? bucket level.frozen = some cuts → part? cuts gap = some part → P cuts part gap) :
    t.AtEachLevel P := by
  intro s hs b hb index child hchild
  obtain ⟨root, hroot, hall⟩ := mem_nodes.1 hs
  have hnode := h.root root hroot s hall
  rw [hb] at hnode
  obtain ⟨-, hvantage, hlength, hlevels, -, hrange, hrouted⟩ := hnode
  refine ⟨h.shape.fanout_eq ▸ hrange _ hchild, fun slot hslot n hn => ?_⟩
  have hnl : n < b.levels.length := by omega
  have hnv : n < b.vantage.length := by omega
  obtain ⟨v, hv, hvalue⟩ := h.exists_value hs b.vantage[n] <| by
    refine Subtree.mem_held_of_own ?_
    rw [hb, Branch.node_points]
    exact List.getElem_mem hnv
  obtain ⟨p, hp, hpvalue⟩ := h.exists_value hs slot <| by
    refine Subtree.mem_contents_of_child (x := (index, child)) ?_ hslot
    rw [Subtree.children, hb]
    exact hchild
  -- the route of the point through all levels, and what it says of this one
  have hroutes := hrouted _ hchild _ (List.mem_map_of_mem hslot)
  have hlevel : (b.levels.zip (b.vantage.map fun v =>
      t.metric (t.points.valueAt v) (t.points.valueAt slot)))[n]? =
        some (b.levels[n], t.metric v.value p.value) := by
    rw [List.getElem?_zip_eq_some, List.getElem?_map, List.getElem?_eq_getElem hnv,
      Option.map_some, hvalue, hpvalue]
    exact ⟨List.getElem?_eq_getElem hnl, rfl⟩
  obtain ⟨cuts, hcuts, hpart⟩ := Branch.places_of_routesFrom hroutes hlevel
  rw [List.length_zip, List.length_map, hlength, hvantage, min_self] at hcuts hpart
  exact ⟨b.levels[n], b.vantage[n], v, p, cuts, List.getElem?_eq_getElem hnl,
    List.getElem?_eq_getElem hnv, hv, hp, hcuts,
    hP _ (hlevels _ (List.getElem_mem hnl)) _ _ _ _ hcuts hpart⟩

/-- **In a reachable tree every point lies between the cuts of its child**, as far as they are
numbers; they are unless both infinities occur as distances. -/
theorem Reachable.bounded (h : Reachable shape metric t) :
    t.AtEachLevel (CutsBound t.shape.branchFactor) ∧
    (t.metric.OneSided → t.AtEachLevel (CutsSeparate t.shape.branchFactor)) ∧
    t.shape = shape ∧ t.metric = metric := by
  obtain ⟨hsound, hshape, hmetric⟩ := h.sound
  have hparts : t.shape.branchFactor < 2 ^ 53 := by
    have hle : t.shape.branchFactor ≤ t.shape.branchFactor ^ t.shape.levelsPerNode :=
      Nat.le_self_pow hsound.shape.levelsPerNode.ne' _
    exact (hle.trans hsound.shape.pow_le).trans_lt (by decide)
  refine ⟨hsound.atEachLevel fun level hlevel bucket cuts part gap hcuts hpart =>
      hlevel.cutsBound hparts hcuts hpart,
    fun hside => hsound.atEachLevel fun level hlevel bucket cuts part gap hcuts hpart => ?_,
    hshape, hmetric⟩
  exact (hlevel.cutsBound hparts hcuts hpart).separate (hlevel.isNumber hside bucket cuts hcuts)

/-- A batch grows a tree of several branches, one of whose points is then deleted: all of them, the
deleted one included, lie between the cuts of their children. -/
theorem bounded_hamming : ∃ t answers, (fresh .smallest hamming).performAll
      [.addBatch [(1, 1), (2, 2), (3, 7), (4, 255)], .addBatch [(5, 3), (6, 6)], .delete 2] =
        .ok (t, answers) ∧
    answers.map Answer.fault? = [none, none, none] ∧ 2 ≤ t.nodeCount.branches ∧
    t.AtEachLevel (CutsBound 2) ∧ t.AtEachLevel (CutsSeparate 2) := by
  have hrun : ((fresh .smallest hamming).performAll
      [.addBatch [(1, 1), (2, 2), (3, 7), (4, 255)], .addBatch [(5, 3), (6, 6)],
        .delete 2]).toOption.any (fun r =>
          r.2.map Answer.fault? = [none, none, none] ∧ 2 ≤ r.1.nodeCount.branches) = true := by
    decide +kernel
  obtain ⟨t, answers, hall, hresult⟩ := any_performAll.1 hrun
  obtain ⟨hanswers, hbranches⟩ := of_decide_eq_true hresult
  obtain ⟨hbound, hseparate, hshape, hmetric⟩ :=
    Reachable.bounded (.performAll (.fresh Shape.smallest_sound) hall)
  rw [hshape] at hbound hseparate
  exact ⟨t, answers, hall, hanswers, hbranches, hbound,
    hseparate (hmetric ▸ sortable_hamming.oneSided)⟩

/-! ### Cuts that are not numbers -/

/-- Whether some child with points was routed by a cut of its first level that is not a number. -/
def hasGap (t : Tree) : Bool :=
  t.nodes.any fun s =>
    match s.node with
    | .leaf _ => false
    | .branch b => b.children.any fun x =>
        !x.2.held.isEmpty && b.levels[0]?.all fun level =>
          (Keyed.get? (t.shape.bucketAt x.1 0) level.frozen).all fun cuts => cuts.any Float.isNaN

/-- Then the cuts do not separate the parts. -/
theorem not_atEachLevel_of_hasGap (h : t.hasGap = true) (hlevels : 0 < t.shape.levelsPerNode) :
    ¬ t.AtEachLevel (CutsSeparate t.shape.branchFactor) := by
  intro hall
  obtain ⟨s, hs, hgap⟩ := List.any_eq_true.1 h
  cases hnode : s.node with
  | leaf l =>
      rw [hnode] at hgap
      cases hgap
  | branch b =>
      rw [hnode] at hgap
      obtain ⟨x, hx, hgap⟩ := List.any_eq_true.1 hgap
      obtain ⟨hheld, hgap⟩ := Bool.and_eq_true_iff.1 hgap
      obtain ⟨slot, hslot⟩ := List.exists_mem_of_ne_nil x.2.held (by simpa using hheld)
      obtain ⟨-, hpoints⟩ := hall s hs b hnode x.1 x.2 hx
      obtain ⟨level, _, _, _, cuts, hlevel, -, -, -, hcuts, hseparate⟩ :=
        hpoints slot hslot 0 hlevels
      rw [hlevel, Option.all_some, hcuts, Option.all_some] at hgap
      obtain ⟨cut, hcut, hnan⟩ := List.any_eq_true.1 hgap
      rw [hseparate.isNumber cut hcut] at hnan
      cases hnan

/-- Infinite distances of either sign. -/
def opposite : Metric := fun _ y =>
  if y = 0 then Float.ofBits 0xFFF0000000000000 else Float.ofBits 0x7FF0000000000000

/-- The first of two cuts stands between the two infinities, the second one behind them: so both
points belong to the second part, and the batch is taken. -/
theorem not_separated_opposite :
    ∃ t answers, (fresh { Shape.smallest with branchFactor := 3 } opposite).performAll
        [.addBatch [(1, 0), (2, 1), (3, 2)]] = .ok (t, answers) ∧
      answers.map Answer.fault? = [none] ∧
      Reachable { Shape.smallest with branchFactor := 3 } opposite t ∧
      ¬ t.AtEachLevel (CutsSeparate t.shape.branchFactor) := by
  have hrun : ((fresh { Shape.smallest with branchFactor := 3 } opposite).performAll
      [.addBatch [(1, 0), (2, 1), (3, 2)]]).toOption.any (fun r =>
        r.2.map Answer.fault? = [none] ∧ r.1.hasGap = true) = true := by
    decide +kernel
  obtain ⟨t, answers, hall, hresult⟩ := any_performAll.1 hrun
  obtain ⟨hanswers, hgap⟩ := of_decide_eq_true hresult
  have hreach := Reachable.performAll (.fresh (by decide)) hall
  refine ⟨t, answers, hall, hanswers, hreach, not_atEachLevel_of_hasGap hgap ?_⟩
  rw [hreach.sound.2.1]
  decide

end Tree

end Vantage
