/-
**Taking points in place is taking points.**

What an attempt leaves behind together with what comes out of it is the node that takes points as a
value; a fault is the same fault. How children are referred to makes no difference, and a leaf that
stores points stores live ones.

Main definitions:

* `Attempt.intake` — what becomes of points that were handed to a node in place;
* `Node.mapChildren` — the same node with its children referred to in another way.

Main results:

* `Node.absorb_eq_takeIn`, `Node.create_eq_build` — **in place or not, the same becomes of points**;
* `Node.takeIn_mapChildren` — children are passed through;
* `Node.live_stored` — points are stored live.
-/

import Vantage.InPlace
import Vantage.Proofs.NodeIntake

set_option relaxedAutoImplicit false
set_option autoImplicit false

namespace Vantage

variable {shape : Shape} {d : Metric}

/-! ### Attempts -/

namespace Attempt

variable {σ α β : Type}

theorem result_andThen (a : Attempt σ α) (next : σ → α → Attempt σ β) :
    (a.andThen next).result = a.result >>= fun r => (next r.1 r.2).result := by
  obtain ⟨left, outcome⟩ := a
  cases outcome <;> rfl

theorem result_map (f : α → β) (a : Attempt σ α) :
    (a.map f).result = a.result >>= fun r => pure (r.1, f r.2) := by
  obtain ⟨left, outcome⟩ := a
  cases outcome <;> rfl

end Attempt

/-! ### Branches -/

theorem Level.split_eq_splitIn (parts : Nat) (vantage : UInt64) (number : Nat) (level : Level)
    (bucket : Nat) (points : List Held) :
    level.split d parts vantage number bucket points =
      (level.splitIn d parts vantage number bucket points).result := by
  simp only [splitIn, Attempt.result]
  unfold split
  simp only []
  split <;> rfl

theorem Level.splitAll_eq_splitAllIn (parts : Nat) (vantage : UInt64) (number : Nat) (level : Level)
    (buckets : Buckets) :
    level.splitAll d parts vantage number buckets =
      (level.splitAllIn d parts vantage number buckets).result := by
  induction buckets generalizing level with
  | nil => rfl
  | cons x rest ih =>
      obtain ⟨bucket, points⟩ := x
      rw [splitAll, splitAllIn, Attempt.result_andThen, split_eq_splitIn]
      refine congrArg _ (funext fun there => ?_)
      rw [Attempt.result_map, ← ih]

namespace Branch

variable {κ : Type}

theorem collateFrom_eq_collateFromIn (parts number : Nat) (levels : List (Held × Level))
    (buckets : Buckets) :
    collateFrom d parts number levels buckets =
      (collateFromIn d parts number levels buckets).result := by
  induction levels generalizing number buckets with
  | nil => rfl
  | cons x rest ih =>
      obtain ⟨vantage, level⟩ := x
      rw [collateFrom, collateFromIn, Level.splitAll_eq_splitAllIn]
      obtain ⟨left, outcome⟩ := level.splitAllIn d parts vantage.value number buckets
      cases outcome with
      | error fault => rfl
      | ok buckets =>
          simp only [Attempt.result, Except.map, ok_bind, ih]
          obtain ⟨others, outcome⟩ := collateFromIn d parts (number + 1) rest buckets
          cases outcome <;> rfl

theorem collate_eq_collateIn (parts : Nat) (b : Branch Held κ) (incoming : List Held) :
    b.collate d parts incoming = (b.collateIn d parts incoming).result := by
  rw [collate, collateFrom_eq_collateFromIn]
  simp only [collateIn, Attempt.result]
  cases (collateFromIn d parts 0 (b.vantage.zip b.levels)
    (if incoming.isEmpty then [] else [(0, incoming)])).outcome <;> rfl

theorem absorb_eq_takeIn (b : Branch Held κ) (incoming : List Held) :
    b.absorb shape d incoming = (b.takeIn shape d incoming).result := by
  simp only [absorb, takeIn]
  split
  · rfl
  · exact collate_eq_collateIn _ _ _

end Branch

/-! ### Nodes -/

/-- What becomes of points that were handed to a node in place. -/
def Attempt.intake {κ : Type} (a : Attempt (Node Held κ) (Absorbed κ)) :
    Except Fault (Intake κ) :=
  a.outcome.map fun x =>
    { node := (x.replacement.map Node.branch).getD a.left
      fresh := x.replacement.isSome
      onward := x.onward
      dead := x.dead }

namespace Node

variable {κ κ' : Type}

/-- **In place or not, the same becomes of points** that are handed to a node. -/
theorem absorb_eq_takeIn (node : Node Held κ) (incoming : List Held) :
    node.absorb shape d incoming = (node.takeIn shape d incoming).intake := by
  cases node with
  | branch b =>
      simp only [absorb, takeIn, Branch.absorb_eq_takeIn, Attempt.result, Attempt.intake]
      cases (b.takeIn shape d incoming).outcome <;> rfl
  | leaf l =>
      simp only [absorb, takeIn, Leaf.absorb, Leaf.takeIn, Leaf.storeIn, Attempt.intake]
      split
      · -- the points find room
        cases (l.draw shape incoming).1.store shape d (l.draw shape incoming).2 <;> rfl
      · split
        · -- the leaf is built anew
          cases (Leaf.draw shape {} _).1.store shape d (Leaf.draw shape {} _).2 <;> rfl
        · -- a branch takes its place
          simp only [Branch.absorb_eq_takeIn, Attempt.result]
          cases ((Branch.new shape).takeIn shape d _).outcome <;> rfl

/-- The same becomes of points for which a new node is built. -/
theorem create_eq_build (incoming : List Held) :
    (create shape d incoming : Except Fault (Intake κ)) =
      (build shape d incoming).intake.map fun i => { i with fresh := true } := by
  simp only [create, build, absorb_eq_takeIn]
  cases (takeIn shape d (if incoming.length ≤ shape.leafLimit then leaf {}
    else branch (Branch.new shape)) incoming : Attempt (Node Held κ) _).intake <;> rfl

end Node

/-! ### Children referred to in another way -/

section mapChildren

variable {π ρ κ κ' : Type}

/-- The same branch with its children referred to in another way. -/
def Branch.mapChildren (f : κ → κ') (b : Branch π κ) : Branch π κ' :=
  { b with children := b.children.map fun x => (x.1, f x.2) }

/-- The same node with its children referred to in another way. -/
def Node.mapChildren (f : κ → κ') : Node π κ → Node π κ'
  | .leaf l => .leaf l
  | .branch b => .branch (b.mapChildren f)

/-- What comes out of a node, with children referred to in another way. -/
def Absorbed.mapChildren (f : κ → κ') (a : Absorbed κ) : Absorbed κ' :=
  { a with replacement := a.replacement.map (Branch.mapChildren f) }

theorem Branch.mapChildren_new (f : κ → κ') (shape : Shape) :
    (new shape : Branch π κ).mapChildren f = new shape := rfl

theorem Branch.takeIn_mapChildren (f : κ → κ') (b : Branch Held κ) (incoming : List Held) :
    (b.mapChildren f).takeIn shape d incoming =
      ⟨(b.takeIn shape d incoming).left.mapChildren f, (b.takeIn shape d incoming).outcome⟩ := by
  by_cases hfew :
      (b.vantage ++ (drawBack (shape.levelsPerNode - b.vantage.length) incoming).2).length <
        shape.levelsPerNode
  · have hleft : (b.mapChildren f).takeIn shape d incoming = ⟨_, _⟩ := if_pos hfew
    have hright : b.takeIn shape d incoming = ⟨_, _⟩ := if_pos hfew
    rw [hleft, hright]
    rfl
  · have hleft : (b.mapChildren f).takeIn shape d incoming = _ := if_neg hfew
    have hright : b.takeIn shape d incoming = _ := if_neg hfew
    rw [hleft, hright]
    rfl

theorem Leaf.storeIn_mapChildren (f : κ → κ') (l : Leaf Held) (incoming dead : List Held) :
    l.storeIn shape d incoming dead =
      (⟨(l.storeIn shape d incoming dead : Attempt (Leaf Held) (Absorbed κ)).left,
        (l.storeIn shape d incoming dead).outcome.map (Absorbed.mapChildren f)⟩ :
          Attempt (Leaf Held) (Absorbed κ')) := by
  unfold storeIn
  cases l.store shape d incoming <;> rfl

theorem Leaf.takeIn_mapChildren (f : κ → κ') (l : Leaf Held) (incoming : List Held) :
    l.takeIn shape d incoming =
      (⟨(l.takeIn shape d incoming : Attempt (Leaf Held) (Absorbed κ)).left,
        (l.takeIn shape d incoming).outcome.map (Absorbed.mapChildren f)⟩ :
          Attempt (Leaf Held) (Absorbed κ')) := by
  unfold takeIn
  dsimp only
  by_cases hroom : (l.draw shape incoming).1.stored.length + (l.draw shape incoming).2.length ≤
      shape.leafCap
  · simp only [if_pos hroom]
    exact storeIn_mapChildren f _ _ _
  · simp only [if_neg hroom]
    by_cases hfit : ((l.draw shape incoming).2 ++
        ((l.draw shape incoming).1.points.partition Held.live).1).length ≤ shape.leafLimit
    · simp only [if_pos hfit]
      exact storeIn_mapChildren f _ _ _
    · simp only [if_neg hfit]
      rw [← Branch.mapChildren_new f, Branch.takeIn_mapChildren]
      cases ((Branch.new shape : Branch Held κ).takeIn shape d _).outcome <;> rfl

namespace Node

@[simp] theorem points_mapChildren (f : κ → κ') (node : Node π κ) :
    (node.mapChildren f).points = node.points := by
  cases node <;> rfl

@[simp] theorem fanout_mapChildren (f : κ → κ') (node : Node π κ) :
    (node.mapChildren f).fanout = node.fanout := by
  cases node <;> rfl

@[simp] theorem children_mapChildren (f : κ → κ') (node : Node π κ) :
    (node.mapChildren f).children = node.children.map fun x => (x.1, f x.2) := by
  cases node <;> rfl

theorem mapPoints_mapChildren (f : κ → κ') (g : π → ρ) (node : Node π κ) :
    (node.mapChildren f).mapPoints g = (node.mapPoints g).mapChildren f := by
  cases node <;> rfl

/-- **Children are passed through** when points are taken. -/
theorem takeIn_mapChildren (f : κ → κ') (node : Node Held κ) (incoming : List Held) :
    (node.mapChildren f).takeIn shape d incoming =
      ⟨(node.takeIn shape d incoming).left.mapChildren f,
        (node.takeIn shape d incoming).outcome.map (Absorbed.mapChildren f)⟩ := by
  cases node with
  | branch b =>
      simp only [mapChildren, takeIn, Branch.takeIn_mapChildren]
      cases (b.takeIn shape d incoming).outcome <;> rfl
  | leaf l =>
      simp only [mapChildren, takeIn]
      rw [Leaf.takeIn_mapChildren f l incoming]

theorem build_mapChildren (f : κ → κ') (incoming : List Held) :
    build shape d incoming =
      (⟨(build shape d incoming : Attempt (Node Held κ) _).left.mapChildren f,
        (build shape d incoming : Attempt (Node Held κ) _).outcome.map
          (Absorbed.mapChildren f)⟩ : Attempt (Node Held κ') (Absorbed κ')) := by
  simp only [build, ← takeIn_mapChildren]
  split <;> rfl

end Node

end mapChildren

/-! ### Stored points -/

namespace Leaf

variable {κ : Type} {incoming dead : List Held} {l : Leaf Held} {a : Absorbed κ}

theorem stored_storeIn (h : (l.storeIn shape d incoming dead).outcome = .ok a) :
    a.stored = incoming := by
  unfold storeIn at h
  split at h
  · obtain rfl := Except.ok.inj h
    rfl
  · cases h

theorem mem_of_mem_draw {p : Held} (h : p ∈ (l.draw shape incoming).2) : p ∈ incoming :=
  List.mem_of_mem_take h

/-- A leaf stores points that it is handed, and points that it held and that are live. -/
theorem stored_takeIn (h : (l.takeIn shape d incoming).outcome = .ok a) {p : Held}
    (hp : p ∈ a.stored) : p ∈ incoming ∨
      p ∈ (l.draw shape incoming).1.points ∧ p.live = true := by
  unfold takeIn at h
  dsimp only at h
  split at h
  · rw [stored_storeIn h] at hp
    exact .inl (mem_of_mem_draw hp)
  · split at h
    · rw [stored_storeIn h] at hp
      rcases List.mem_append.1 (mem_of_mem_draw hp) with hp | hp
      · exact .inl (mem_of_mem_draw hp)
      · rw [List.partition_eq_filter_filter] at hp
        exact .inr (List.mem_filter.1 hp)
    · -- a branch takes the place of the leaf, and nothing is stored
      obtain ⟨onward, -, rfl⟩ := map_eq_ok.1 h
      exact absurd hp (by simp)

end Leaf

/-- **Points are stored live**: a leaf stores points that it is handed, and live ones it had. -/
theorem Node.live_stored {κ : Type} {node : Node Held κ} {incoming : List Held} {a : Absorbed κ}
    (h : (node.takeIn shape d incoming).outcome = .ok a)
    (hlive : ∀ p ∈ incoming, p.live = true) {p : Held} (hp : p ∈ a.stored) :
    p ∈ node.points ++ incoming ∧ p.live = true := by
  cases node with
  | branch b =>
      obtain ⟨onward, -, rfl⟩ := map_eq_ok.1 h
      exact absurd hp (by simp)
  | leaf l =>
      rcases Leaf.stored_takeIn h hp with hp | ⟨hp, hplive⟩
      · exact ⟨List.mem_append_right _ hp, hlive p hp⟩
      · exact ⟨(Leaf.perm_draw shape l incoming).mem_iff.1 (List.mem_append_left _ hp), hplive⟩

end Vantage
