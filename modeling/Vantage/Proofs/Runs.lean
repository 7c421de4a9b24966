/-
**Runs of a tree.**

A run performs operations one after another and collects their answers; a tree is reachable when
some run from a tree without entries leads to it.

Main definitions:

* `Tree.Reachable` — the trees at the end of runs;
* `Tree.Performs` — what an operation does to a sound tree, case by case.

Main results:

* `Tree.Sound.exists_performs` — **on a sound tree every operation answers**;
* `Tree.Performs.sound`, `Tree.Reachable.sound` — **operations keep a tree sound**, and so every
  reachable tree is.
-/

import Vantage.Proofs.Flushing
import Vantage.Proofs.Searching
import Vantage.Tree.Operations

set_option relaxedAutoImplicit false
set_option autoImplicit false

namespace Vantage

/-! ### Answers -/

theorem Answer.fault?_eq_some {answer : Answer} {fault : Fault} :
    answer.fault? = some fault ↔ answer = .done (.error fault) := by
  rcases answer with (_ | _) | _ | _ | _ <;> simp [fault?]

namespace Tree

/-! ### Runs -/

theorem performAll_cons_eq_ok {t t' : Tree} {op : Op} {rest : List Op} {answers : List Answer} :
    t.performAll (op :: rest) = .ok (t', answers) ↔
      ∃ t₁ answer answers', t.perform op = .ok (t₁, answer) ∧
        t₁.performAll rest = .ok (t', answers') ∧ answer :: answers' = answers := by
  rw [performAll, bind_eq_ok, Prod.exists]
  refine exists_congr fun t₁ => exists_congr fun answer => ?_
  simp only [bind_eq_ok, Prod.exists, pure_eq_ok, Except.ok.injEq, Prod.mk.injEq]
  constructor
  · rintro ⟨hop, _, answers', hrest, rfl, rfl⟩
    exact ⟨answers', hop, hrest, rfl⟩
  · rintro ⟨answers', hop, hrest, rfl⟩
    exact ⟨hop, t', answers', hrest, rfl, rfl⟩

/-- The faults that a run reports, answer by answer. -/
def faults (t : Tree) (ops : List Op) : Option (List (Option Fault)) :=
  (t.performAll ops).toOption.map fun r => r.2.map Answer.fault?

theorem faults_eq_some {t : Tree} {ops : List Op} {fs : List (Option Fault)} :
    t.faults ops = some fs ↔
      ∃ t' answers, t.performAll ops = .ok (t', answers) ∧ answers.map Answer.fault? = fs := by
  unfold faults
  rcases t.performAll ops with breach | ⟨t', answers⟩
  · simp [Except.toOption]
  · simp [Except.toOption]

/-- What a run leads to can be tested. -/
theorem any_performAll {t : Tree} {ops : List Op} {p : Tree × List Answer → Bool} :
    (t.performAll ops).toOption.any p = true ↔
      ∃ t' answers, t.performAll ops = .ok (t', answers) ∧ p (t', answers) = true := by
  rw [any_toOption, Prod.exists]

/-- The trees that runs lead to. -/
inductive Reachable (shape : Shape) (metric : Metric) : Tree → Prop where
  | fresh (h : shape.Sound) : Reachable shape metric (Tree.fresh shape metric)
  | step {t t' : Tree} {op : Op} {answer : Answer} (h : Reachable shape metric t)
      (hop : t.perform op = .ok (t', answer)) : Reachable shape metric t'

variable {t t' : Tree}

/-! ### Registering several entries -/

/-- What registering entries in order does. -/
inductive RegistersAll : Tree → List Entry → Tree → Prop where
  | nil (t : Tree) : RegistersAll t [] t
  | cons {t t₁ t' : Tree} {e : Entry} {rest : List Entry} {slot : Nat}
      (hfirst : t.Registers e.1 e.2 slot t₁) (hrest : RegistersAll t₁ rest t') :
      RegistersAll t (e :: rest) t'

theorem registerAll_cons (t : Tree) (e : Entry) (rest : List Entry) :
    t.registerAll (e :: rest) = t.register e.1 e.2 >>= fun t => t.registerAll rest := by
  simp only [registerAll, register, Registry.registerAll]
  cases t.toRegistry.register e.1 e.2 <;> rfl

theorem exists_registerAll (h : t.Sound) (entries : List Entry) :
    ∃ t', t.registerAll entries = .ok t' ∧ t.RegistersAll entries t' := by
  induction entries generalizing t with
  | nil => exact ⟨t, rfl, .nil t⟩
  | cons e rest ih =>
      obtain ⟨slot, t₁, hok, hr⟩ := exists_register h e.1 e.2
      obtain ⟨t', hrest, hall⟩ := ih (hr.sound h)
      exact ⟨t', registerAll_cons t e rest ▸ bind_eq_ok.2 ⟨t₁, hok, hrest⟩, .cons hr hall⟩

namespace RegistersAll

variable {entries : List Entry}

theorem sound (hr : t.RegistersAll entries t') (h : t.Sound) : t'.Sound := by
  induction hr with
  | nil t => exact h
  | cons hfirst hrest ih => exact ih (hfirst.sound h)

/-- Registering entries leaves the shape, the metric and the nodes alone. -/
theorem frame (hr : t.RegistersAll entries t') :
    t'.shape = t.shape ∧ t'.metric = t.metric ∧ t'.root = t.root := by
  induction hr with
  | nil t => exact ⟨rfl, rfl, rfl⟩
  | cons hfirst hrest ih =>
      obtain ⟨hshape, hmetric, hroot⟩ := ih
      exact ⟨hshape.trans hfirst.shape, hmetric.trans hfirst.metric, hroot.trans hfirst.root⟩

theorem shape (hr : t.RegistersAll entries t') : t'.shape = t.shape := hr.frame.1

theorem metric (hr : t.RegistersAll entries t') : t'.metric = t.metric := hr.frame.2.1

theorem root (hr : t.RegistersAll entries t') : t'.root = t.root := hr.frame.2.2

end RegistersAll

/-! ### Reading -/

/-- Looking up an id gives the point for which it stands. -/
theorem lookup?_eq (h : t.Sound) (id : Int64) :
    t.lookup? id = .ok (t.ids[id]?.map fun slot => (t.points.heldAt slot).point) := by
  unfold Registry.lookup?
  cases hid : t.ids[id]? with
  | none => rfl
  | some slot =>
      obtain ⟨p, hp, -⟩ := h.exists_point hid
      simp only [t.points.point_eq_ok_iff.2 hp, ok_bind, Option.map_some,
        t.points.heldAt_of_get? hp]
      rfl

/-- The entries of ids that stand for points. -/
theorem entriesOf_eq {points : Slots Point} {l : List (Int64 × Nat)}
    (h : ∀ x ∈ l, points.Occupied x.2) :
    Registry.entriesOf points l = .ok (l.map fun x => (x.1, points.valueAt x.2)) := by
  induction l with
  | nil => rfl
  | cons x rest ih =>
      obtain ⟨id, slot⟩ := x
      obtain ⟨hslot, hrest⟩ := List.forall_mem_cons.1 h
      obtain ⟨p, hp⟩ := Slots.occupied_iff.1 hslot
      rw [Registry.entriesOf, points.point_eq_ok_iff.2 hp, ok_bind, ih hrest, ok_bind, List.map_cons,
        Slots.valueAt, points.heldAt_of_get? hp]
      rfl

/-- The snapshot lists the ids with the fingerprints of their points. -/
theorem snapshot_eq (h : t.Sound) :
    t.snapshot = .ok ⟨t.ids.toList.map fun x => (x.1, t.points.valueAt x.2)⟩ := by
  have hentries : Registry.entriesOf t.points t.ids.toList =
      .ok (t.ids.toList.map fun x => (x.1, t.points.valueAt x.2)) := by
    refine entriesOf_eq fun x hx => ?_
    obtain ⟨p, hp, -⟩ := h.exists_point (Std.TreeMap.mem_toList_iff_getElem?_eq_some.1 hx)
    exact Slots.occupied_iff.2 ⟨p, hp⟩
  rw [Registry.snapshot, hentries]
  rfl

/-- The rows that a search of the tree visits. -/
def visitRows (t : Tree) (target : UInt64) (radius : Float) : List (List Visit) :=
  t.root.elim [] (Subtree.visits t.points t.shape.branchFactor t.metric target radius)

theorem Sound.held_occupied (h : t.Sound) : ∀ slot ∈ t.held, t.points.Occupied slot :=
  fun slot hslot => (h.points.occupied slot).2 (List.mem_append_left _ hslot)

/-- A search puts the visits of its rows together. -/
theorem search_eq (h : t.Sound) (target : UInt64) (radius : Float) :
    t.search target radius = .ok (.ofVisits (t.visitRows target radius).flatten) := by
  have hocc := h.held_occupied
  unfold search visitRows
  unfold held at hocc
  cases hroot : t.root with
  | none => rfl
  | some root =>
      rw [hroot] at hocc
      simp only [Subtree.search_ok hocc, ok_bind]
      rfl

/-! ### What an operation does -/

/-- **What an operation does to a sound tree, and what it answers.** -/
inductive Performs (t : Tree) : Op → Tree → Answer → Prop where
  | addWaits {id : Int64} {value : UInt64} {slot : Nat} {t' : Tree}
      (hr : t.Registers id value slot t') (hroom : t'.pending < t'.shape.syncThreshold) :
      Performs t (.add id value) t' (.done (.ok ()))
  | addFlushes {id : Int64} {value : UInt64} {slot : Nat} {t₁ t' : Tree}
      {outcome : Except Fault Unit} (hr : t.Registers id value slot t₁)
      (hfull : t₁.shape.syncThreshold ≤ t₁.pending) (hf : t₁.Flushes outcome t') :
      Performs t (.add id value) t' (.done outcome)
  | addBatch {entries : List Entry} {t₁ t' : Tree} {outcome : Except Fault Unit}
      (hr : t.RegistersAll entries t₁) (hf : t₁.Flushes outcome t') :
      Performs t (.addBatch entries) t' (.done outcome)
  | sync {t' : Tree} {outcome : Except Fault Unit} (hf : t.Flushes outcome t') :
      Performs t .sync t' (.done outcome)
  | delete {id : Int64} {t' : Tree} (hd : t.Deletes id t') (hsame : t.ids[id]? = none → t' = t) :
      Performs t (.delete id) t' (.point (t.ids[id]?.map fun slot =>
        { (t.points.heldAt slot).point with live := false }))
  | clear : Performs t .clear (fresh t.shape t.metric) (.done (.ok ()))
  | lookUp {id : Int64} : Performs t (.lookUp id) t
      (.point (t.ids[id]?.map fun slot => (t.points.heldAt slot).point))
  | snapshot : Performs t .snapshot t
      (.entries ⟨t.ids.toList.map fun x => (x.1, t.points.valueAt x.2)⟩)
  | search {target : UInt64} {radius : Float} : Performs t (.search target radius) t
      (.found (.ofVisits (t.visitRows target radius).flatten))

/-- **On a sound tree every operation answers.** -/
theorem Sound.exists_performs (h : t.Sound) (op : Op) :
    ∃ t' answer, t.perform op = .ok (t', answer) ∧ t.Performs op t' answer := by
  cases op with
  | add id value =>
      obtain ⟨slot, t₁, hok, hr⟩ := exists_register h id value
      by_cases hfull : t₁.shape.syncThreshold ≤ t₁.pending
      · obtain ⟨t', outcome, hflush, hf⟩ := exists_flush (hr.sound h)
        refine ⟨t', .done outcome, ?_, .addFlushes hr hfull hf⟩
        rw [perform, add, hok, ok_bind, if_pos hfull, hflush]
        rfl
      · refine ⟨t₁, .done (.ok ()), ?_, .addWaits hr (Nat.lt_of_not_le hfull)⟩
        rw [perform, add, hok, ok_bind, if_neg hfull]
        rfl
  | addBatch entries =>
      obtain ⟨t₁, hok, hr⟩ := exists_registerAll h entries
      obtain ⟨t', outcome, hflush, hf⟩ := exists_flush (hr.sound h)
      refine ⟨t', .done outcome, ?_, .addBatch hr hf⟩
      rw [perform, Tree.addBatch, hok, ok_bind, hflush]
      rfl
  | sync =>
      obtain ⟨t', outcome, hflush, hf⟩ := exists_flush h
      exact ⟨t', .done outcome, by rw [perform, hflush]; rfl, .sync hf⟩
  | delete id =>
      obtain ⟨t', hok, hd⟩ := exists_delete h id
      refine ⟨t', _, by rw [perform, hok]; rfl, .delete hd fun hid => ?_⟩
      rw [delete_of_none hid] at hok
      exact (Prod.mk.inj (Except.ok.inj hok)).1.symm
  | clear => exact ⟨_, _, by rw [perform, clear_eq h]; rfl, .clear⟩
  | lookUp id => exact ⟨t, _, by rw [perform, lookup?_eq h]; rfl, .lookUp⟩
  | snapshot => exact ⟨t, _, by rw [perform, snapshot_eq h]; rfl, .snapshot⟩
  | search target radius => exact ⟨t, _, by rw [perform, search_eq h]; rfl, .search⟩

theorem Sound.performs {op : Op} {answer : Answer} (h : t.Sound)
    (hop : t.perform op = .ok (t', answer)) : t.Performs op t' answer := by
  obtain ⟨t'', answer', hok, hp⟩ := h.exists_performs op
  obtain ⟨rfl, rfl⟩ := Prod.mk.inj (Except.ok.inj (hop.symm.trans hok))
  exact hp

namespace Performs

variable {op : Op} {answer : Answer}

/-- **An operation keeps a tree sound.** -/
theorem sound (hp : t.Performs op t' answer) (h : t.Sound) : t'.Sound := by
  cases hp with
  | addWaits hr _ => exact hr.sound h
  | addFlushes _ _ hf | addBatch _ hf | sync hf => exact hf.sound
  | delete hd _ => exact hd.sound h
  | clear => exact sound_fresh h.shape t.metric
  | lookUp | snapshot | search => exact h

theorem shape (hp : t.Performs op t' answer) : t'.shape = t.shape := by
  cases hp with
  | addWaits hr _ => exact hr.shape
  | addFlushes hr _ hf => exact hf.shape.trans hr.shape
  | addBatch hr hf => exact hf.shape.trans hr.shape
  | sync hf => exact hf.shape
  | delete hd _ => exact hd.shape
  | clear | lookUp | snapshot | search => rfl

theorem metric (hp : t.Performs op t' answer) : t'.metric = t.metric := by
  cases hp with
  | addWaits hr _ => exact hr.metric
  | addFlushes hr _ hf => exact hf.metric.trans hr.metric
  | addBatch hr hf => exact hf.metric.trans hr.metric
  | sync hf => exact hf.metric
  | delete hd _ => exact hd.metric
  | clear | lookUp | snapshot | search => rfl

end Performs

/-- Every run from a sound tree is carried out. -/
theorem Sound.exists_performAll (h : t.Sound) (ops : List Op) :
    ∃ t' answers, t.performAll ops = .ok (t', answers) := by
  induction ops generalizing t with
  | nil => exact ⟨t, [], rfl⟩
  | cons op rest ih =>
      obtain ⟨t₁, answer, hop, hp⟩ := h.exists_performs op
      obtain ⟨t', answers, hrest⟩ := ih (hp.sound h)
      exact ⟨t', answer :: answers,
        performAll_cons_eq_ok.2 ⟨t₁, answer, answers, hop, hrest, rfl⟩⟩

namespace Reachable

variable {shape : Shape} {metric : Metric}

/-- **A reachable tree is sound**, and has its shape and metric from the start. -/
theorem sound (h : Reachable shape metric t) : t.Sound ∧ t.shape = shape ∧ t.metric = metric := by
  induction h with
  | fresh hshape => exact ⟨sound_fresh hshape metric, rfl, rfl⟩
  | step h hop ih =>
      obtain ⟨hsound, hshape, hmetric⟩ := ih
      have hp := hsound.performs hop
      exact ⟨hp.sound hsound, hp.shape.trans hshape, hp.metric.trans hmetric⟩

/-- A run from a reachable tree ends at one. -/
theorem performAll {ops : List Op} {answers : List Answer} (h : Reachable shape metric t)
    (hok : t.performAll ops = .ok (t', answers)) : Reachable shape metric t' := by
  induction ops generalizing t answers with
  | nil =>
      obtain ⟨rfl, -⟩ := Prod.mk.inj (Except.ok.inj hok)
      exact h
  | cons op rest ih =>
      obtain ⟨t₁, answer, answers', hop, hrest, -⟩ := performAll_cons_eq_ok.1 hok
      exact ih (h.step hop) hrest

end Reachable

end Tree

end Vantage
