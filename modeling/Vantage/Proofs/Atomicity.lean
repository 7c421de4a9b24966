/-
**What is left alone between two flushes.**

Between two flushes entries are registered and deleted, but nodes are left alone; points that nodes
hold are at most marked as dead. So when a batch is rolled back, the nodes, and for the ids that
were not deleted the points, are those of the moment when the last flush had ended.

Main definitions:

* `Tree.Keeps` — a tree has the nodes of an earlier one, with their entries;
* `Op.Settles` — an operation has ended with a flush, or has given everything up;
* `Op.deleted` — the ids that an operation has deleted.

Main results:

* `Tree.Performs.keeps` — **without a flush the nodes stay**;
* `Tree.Performs.exists_rollsBack` — an operation that reports a rolled back batch has rolled back
  a flush;
* `Tree.Keeps.ids_of_rollsBack`, `Tree.Keeps.search_of_rollsBack` — **what a rollback restores**.
-/

import Vantage.Proofs.Runs

set_option relaxedAutoImplicit false
set_option autoImplicit false

namespace Vantage

/-! ### What an operation does -/

/-- An operation has ended with a flush, or has given everything up: additions one by one flush now
and then, and otherwise leave a point waiting. -/
def Op.Settles (after : Registry) : Op → Prop
  | .add _ _ => after.pending = 0
  | .addBatch _ | .sync | .clear => True
  | _ => False

/-- The ids that an operation has deleted. -/
def Op.deleted : Op → Answer → List Int64
  | .delete id, .point (some _) => [id]
  | _, _ => []

@[simp] theorem Point.entry_retire (id : Int64) (p : Point) : (p.retire id).entry = p.entry := by
  rw [Point.entry, Point.id_retire, Point.value_retire, Point.entry]

namespace Tree

variable {t t₁ t₂ t' : Tree} {gone gone' : List Int64}

/-! ### Nodes that stay -/

/-- A tree has the nodes of an earlier one, and their points still have the same entries. For ids
other than the given ones it remembers what the earlier tree did. -/
structure Keeps (gone : List Int64) (t t' : Tree) : Prop where
  shape : t'.shape = t.shape
  metric : t'.metric = t.metric
  root : t'.root = t.root
  labels : t'.labels = t.labels
  arrivals : t.arrivals ⊆ t'.arrivals
  entries : ∀ slot ∈ t.held,
    (t'.points.get? slot).map Point.entry = (t.points.get? slot).map Point.entry
  placed : ∀ id, t'.placedSlot id = if id ∈ gone then none else t.placedSlot id

namespace Keeps

theorem refl (t : Tree) : t.Keeps [] t where
  shape := rfl
  metric := rfl
  root := rfl
  labels := rfl
  arrivals := List.Subset.refl _
  entries _ _ := rfl
  placed id := by simp

theorem held (hk : t.Keeps gone t') : t'.held = t.held := by rw [Tree.held, Tree.held, hk.root]

theorem trans (hk : t.Keeps gone t₁) (hk' : t₁.Keeps gone' t₂) : t.Keeps (gone' ++ gone) t₂ where
  shape := hk'.shape.trans hk.shape
  metric := hk'.metric.trans hk.metric
  root := hk'.root.trans hk.root
  labels := hk'.labels.trans hk.labels
  arrivals := List.Subset.trans hk.arrivals hk'.arrivals
  entries slot hslot := (hk'.entries slot (hk.held ▸ hslot)).trans (hk.entries slot hslot)
  placed id := by
    rw [hk'.placed, hk.placed]
    by_cases hid : id ∈ gone' <;> simp [hid]

end Keeps

/-- Registering an entry keeps the nodes. -/
theorem Registers.keeps {id : Int64} {value : UInt64} {slot : Nat}
    (hr : t.Registers id value slot t') : t.Keeps [] t' where
  shape := hr.shape
  metric := hr.metric
  root := hr.root
  labels := hr.labels
  arrivals := by
    rw [hr.arrivals]
    exact List.subset_append_left _ _
  entries other hother := by
    rw [hr.get?_of_mem (List.mem_append_left _ hother), Option.map_map]
    congr
    funext p
    exact Point.entry_retire id p
  placed i := by
    rw [hr.placedSlot]
    simp

/-- Deleting an id keeps the nodes. -/
theorem Deletes.keeps {id : Int64} (hd : t.Deletes id t') : t.Keeps [id] t' where
  shape := hd.shape
  metric := hd.metric
  root := hd.root
  labels := hd.labels
  arrivals := hd.arrivals ▸ List.Subset.refl _
  entries other _ := by
    rw [hd.get?, Option.map_map]
    congr
    funext p
    exact Point.entry_retire id p
  placed i := by
    rw [hd.placedSlot]
    simp only [List.mem_singleton, eq_comm]

theorem RegistersAll.keeps {entries : List Entry} (hr : t.RegistersAll entries t') :
    t.Keeps [] t' := by
  induction hr with
  | nil t => exact .refl t
  | cons hfirst hrest ih => exact hfirst.keeps.trans ih

/-! ### With a flush and without -/

/-- After a flush nothing is remembered. -/
theorem Performs.prior {op : Op} {answer : Answer} (hp : t.Performs op t' answer)
    (hend : op.Settles t'.toRegistry) : t'.prior = ∅ := by
  cases hp with
  | addWaits hr _ =>
      change t'.arrivals.length = 0 at hend
      rw [hr.arrivals, List.length_append, List.length_singleton] at hend
      omega
  | addFlushes _ _ hf | addBatch _ hf | sync hf => exact hf.prior
  | clear => rfl
  | delete | lookUp | snapshot | search => exact hend.elim

/-- **Without a flush the nodes stay.** -/
theorem Performs.keeps {op : Op} {answer : Answer} (hp : t.Performs op t' answer)
    (hend : ¬ op.Settles t'.toRegistry) : t.Keeps (op.deleted answer) t' := by
  cases hp with
  | addWaits hr _ => exact hr.keeps
  | addFlushes _ _ hf =>
      -- nothing waits after a flush, so the addition has settled
      refine absurd ?_ hend
      change t'.arrivals.length = 0
      rw [hf.arrivals]
      rfl
  | @delete id t' hd hsame =>
      cases hid : t.ids[id]? with
      | none =>
          rw [hsame hid]
          exact .refl t
      | some slot => exact hd.keeps
  | lookUp | snapshot | search => exact .refl t
  | addBatch | sync | clear => exact absurd trivial hend

/-! ### Rolling back -/

section rollback

variable {op : Op} {fault : Fault} {dropped : List Entry}

theorem Flushes.rollsBack_of_error (hf : t.Flushes (.error (.batchRolledBack fault dropped)) t') :
    t'.Sound ∧ t.RollsBack t' := by
  cases hf with
  | rollsBack _ _ _ hsound hb => exact ⟨hsound, hb⟩

/-- **An operation that reports a rolled back batch has rolled back a flush**, after it had done no
more than register entries. -/
theorem Performs.exists_rollsBack
    (hp : t.Performs op t' (.done (.error (.batchRolledBack fault dropped)))) :
    ∃ t₁, t.Keeps [] t₁ ∧ t'.Sound ∧ t₁.RollsBack t' := by
  cases hp with
  | addFlushes hr _ hf => exact ⟨_, hr.keeps, hf.rollsBack_of_error⟩
  | addBatch hr hf => exact ⟨_, hr.keeps, hf.rollsBack_of_error⟩
  | sync hf => exact ⟨t, .refl t, hf.rollsBack_of_error⟩

end rollback

/-- Whether a point is live, the ids say. -/
theorem Sound.live_of_live (h : t.Sound) (h' : t'.Sound)
    (hids : ∀ id : Int64, t'.ids[id]? = t.ids[id]?) {slot : Nat} {p p' : Point}
    (hp : t.points.get? slot = some p) (hp' : t'.points.get? slot = some p') (hid : p'.id = p.id)
    (hlive : p'.live = true) : p.live = true := by
  have hslot := h'.ids_of_live hp' hlive
  rw [hids, hid] at hslot
  obtain ⟨q, hq, -, hqlive⟩ := h.exists_point hslot
  rw [hp] at hq
  exact Option.some.inj hq ▸ hqlive

/-- A point is the same when its entry is and when the ids stand for the same points. -/
theorem get?_eq_of_entries (h : t.Sound) (h' : t'.Sound)
    (hids : ∀ id : Int64, t'.ids[id]? = t.ids[id]?) {slot : Nat}
    (hentry : (t'.points.get? slot).map Point.entry = (t.points.get? slot).map Point.entry) :
    t'.points.get? slot = t.points.get? slot := by
  cases hp : t.points.get? slot with
  | none =>
      rw [hp] at hentry
      exact Option.map_eq_none_iff.1 hentry
  | some p =>
      rw [hp] at hentry
      obtain ⟨p', hp', heq⟩ := Option.map_eq_some_iff.1 hentry
      have hid : p'.id = p.id := congrArg Prod.fst heq
      have hvalue : p'.value = p.value := congrArg Prod.snd heq
      have hlive : p'.live = p.live := by
        rw [Bool.eq_iff_iff]
        exact ⟨h.live_of_live h' hids hp hp' hid,
          h'.live_of_live h (fun id => (hids id).symm) hp' hp hid.symm⟩
      obtain ⟨i, v, l⟩ := p
      obtain ⟨i', v', l'⟩ := p'
      obtain rfl := hid
      obtain rfl := hvalue
      obtain rfl := hlive
      exact hp'

/-- Trees with the same nodes and the same points in them are searched alike. -/
theorem search_congr (hshape : t'.shape = t.shape) (hmetric : t'.metric = t.metric)
    (hroot : t'.root = t.root)
    (hpoints : ∀ slot ∈ t.held, t'.points.get? slot = t.points.get? slot) (target : UInt64)
    (radius : Float) : t'.search target radius = t.search target radius := by
  unfold search
  unfold held at hpoints
  rw [hroot, hshape, hmetric]
  cases hr : t.root with
  | none => rfl
  | some root =>
      rw [hr] at hpoints
      simp only [Subtree.search_congr hpoints]

section restores

variable {t₀ : Tree}

/-- After a rollback an id has the point that it had when the last flush had ended, unless it was
deleted. -/
theorem Keeps.ids_of_rollsBack (hk₀ : t₀.Keeps gone t) (hprior : t₀.prior = ∅) (hk : t.Keeps [] t₁)
    (hb : t₁.RollsBack t') (id : Int64) :
    t'.ids[id]? = if id ∈ gone then none else t₀.ids[id]? := by
  rw [hb.ids, hk.placed, if_neg List.not_mem_nil, hk₀.placed, placedSlot, hprior]
  rfl

/-- After a rollback without deletions a search finds what it found after the last flush. -/
theorem Keeps.search_of_rollsBack (hk₀ : t₀.Keeps [] t) (hprior : t₀.prior = ∅) (h₀ : t₀.Sound)
    (hk : t.Keeps [] t₁) (hb : t₁.RollsBack t') (h' : t'.Sound) (target : UInt64)
    (radius : Float) : t'.search target radius = t₀.search target radius := by
  have hk₁ := hk₀.trans hk
  refine search_congr (hb.shape.trans hk₁.shape) (hb.metric.trans hk₁.metric)
    (hb.root.trans hk₁.root) (fun slot hslot => ?_) target radius
  refine get?_eq_of_entries h₀ h' (fun id => ?_) ?_
  · rw [hk₀.ids_of_rollsBack hprior hk hb, if_neg List.not_mem_nil]
  · rw [hb.entries slot (hk₁.held ▸ hslot), hk₁.entries slot hslot]

end restores

end Tree

end Vantage
