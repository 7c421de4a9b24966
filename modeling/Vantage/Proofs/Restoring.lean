/-
**Adding entries in a row, and rebuilding a tree from them.**

A tree is rebuilt from a snapshot by adding its entries one by one, which stops at the first fault,
and a last flush. Both are runs of the operations of the tree, so what is known of runs is known of
rebuilding.

Main definitions:

* `Tree.additions` — the operations that add entries one by one.

Main results:

* `Tree.Sound.exists_addAll` — adding entries is a run, a whole one unless it reports a fault;
* `Tree.exists_restore` — **so is rebuilding a tree**.
-/

import Vantage.Proofs.Runs

set_option relaxedAutoImplicit false
set_option autoImplicit false

namespace Vantage

namespace Tree

variable {t t' t₁ : Tree}

/-! ### One run after another -/

/-- A run that goes on where another has ended. -/
theorem performAll_append {ops ops' : List Op} {answers answers' : List Answer}
    (h : t.performAll ops = .ok (t₁, answers)) (h' : t₁.performAll ops' = .ok (t', answers')) :
    t.performAll (ops ++ ops') = .ok (t', answers ++ answers') := by
  induction ops generalizing t answers with
  | nil =>
      obtain ⟨rfl, rfl⟩ := Prod.mk.inj (Except.ok.inj h)
      exact h'
  | cons op rest ih =>
      obtain ⟨t₂, answer, others, hop, hrest, rfl⟩ := performAll_cons_eq_ok.1 h
      exact performAll_cons_eq_ok.2 ⟨t₂, answer, others ++ answers', hop, ih hrest, rfl⟩

/-- A run of one operation. -/
theorem performAll_singleton {op : Op} {answer : Answer} (h : t.perform op = .ok (t', answer)) :
    t.performAll [op] = .ok (t', [answer]) :=
  performAll_cons_eq_ok.2 ⟨t', answer, [], h, rfl, rfl⟩

/-! ### Adding entries -/

/-- The operations that add entries one by one. -/
def additions (entries : List Entry) : List Op := entries.map fun e => .add e.1 e.2

theorem perform_add_eq_ok {id : Int64} {value : UInt64} {answer : Answer} :
    t.perform (.add id value) = .ok (t', answer) ↔
      ∃ outcome, t.add id value = .ok (t', outcome) ∧ answer = .done outcome := by
  rw [perform, bind_eq_ok, Prod.exists]
  constructor
  · rintro ⟨t₁, outcome, hadd, hok⟩
    obtain ⟨rfl, rfl⟩ := Prod.mk.inj (Except.ok.inj hok)
    exact ⟨outcome, hadd, rfl⟩
  · rintro ⟨outcome, hadd, rfl⟩
    exact ⟨t', outcome, hadd, rfl⟩

/-- **Adding entries is a run.**  It adds them all, or its last answer is the fault reported. -/
theorem Sound.exists_addAll (h : t.Sound) (entries : List Entry) :
    ∃ t' outcome ops answers, t.addAll entries = .ok (t', outcome) ∧ t'.Sound ∧
      t.performAll ops = .ok (t', answers) ∧
      (outcome = .ok () → ops = additions entries) ∧
      ∀ fault, outcome = .error fault → .done (.error fault) ∈ answers := by
  induction entries generalizing t with
  | nil => exact ⟨t, .ok (), [], [], rfl, h, rfl, fun _ => rfl, (fun _ h => by cases h)⟩
  | cons e rest ih =>
      obtain ⟨id, value⟩ := e
      obtain ⟨t₁, answer, hop, hp⟩ := h.exists_performs (.add id value)
      obtain ⟨outcome, hadd, rfl⟩ := perform_add_eq_ok.1 hop
      cases outcome with
      | error fault =>
          -- the fault ends it, and the run consists of this one operation
          refine ⟨t₁, .error fault, [.add id value], _, ?_, hp.sound h, performAll_singleton hop,
            (fun hok => by cases hok), ?_⟩
          · rw [addAll, hadd]
            rfl
          · rintro fault' hfault
            rw [Except.error.inj hfault]
            exact List.mem_singleton_self _
      | ok =>
          obtain ⟨t', outcome, ops, answers, hall, hsound, hrun, hops, hfaults⟩ := ih (hp.sound h)
          refine ⟨t', outcome, .add id value :: ops, _, ?_, hsound,
            performAll_append (performAll_singleton hop) hrun, ?_, ?_⟩
          · rw [addAll, hadd]
            exact hall
          · intro hok
            rw [hops hok]
            rfl
          · intro fault hfault
            exact List.mem_cons_of_mem _ (hfaults fault hfault)

/-! ### Rebuilding a tree -/

/-- What rebuilding a tree from entries gives: the tree after the flush that follows when they have
all been added, or a fault that such a run reports. -/
structure Rebuilds (shape : Shape) (metric : Metric) (entries : List Entry)
    (outcome : Except Fault Tree) : Prop where
  tree : ∀ t', outcome = .ok t' → ∃ t answers,
    (fresh shape metric).performAll (additions entries) = .ok (t, answers) ∧
      t.flush = .ok (t', .ok ())
  fault : ∀ fault, outcome = .error fault → ∃ ops t' answers,
    (fresh shape metric).performAll ops = .ok (t', answers) ∧ .done (.error fault) ∈ answers

/-- **Rebuilding a tree is a run**, and it always comes to an end. -/
theorem exists_restore {shape : Shape} (hshape : shape.Sound) (metric : Metric)
    (snapshot : Snapshot) : ∃ outcome, restore snapshot shape metric = .ok outcome ∧
      Rebuilds shape metric snapshot.entries outcome := by
  have hfresh : ofShape shape metric = .ok (fresh shape metric) :=
    ofShape_eq_ok.2 ⟨hshape, rfl⟩
  obtain ⟨t, outcome, ops, answers, hall, hsound, hrun, hops, hfaults⟩ :=
    (sound_fresh hshape metric).exists_addAll snapshot.entries
  cases outcome with
  | error fault =>
      refine ⟨.error fault, ?_, (fun t' h => by cases h), ?_⟩
      · rw [restore, hfresh]
        simp only [hall, ok_bind]
        rfl
      · rintro fault' hfault
        obtain rfl := Except.error.inj hfault
        exact ⟨ops, t, answers, hrun, hfaults fault rfl⟩
  | ok =>
      obtain ⟨t', answer, hflush, hp⟩ := hsound.exists_performs .sync
      have hwhole := performAll_append hrun (performAll_singleton hflush)
      obtain ⟨⟨t'', outcome⟩, hok, hflush⟩ := bind_eq_ok.1 hflush
      obtain ⟨rfl, rfl⟩ := Prod.mk.inj (Except.ok.inj hflush)
      refine ⟨outcome.map fun _ => t'', ?_, ?_, ?_⟩
      · rw [restore, hfresh]
        simp only [hall, ok_bind, hok]
        rfl
      · intro t' h
        cases outcome with
        | error fault => cases h
        | ok =>
            obtain rfl := Except.ok.inj h
            exact ⟨t, answers, hops rfl ▸ hrun, hok⟩
      · intro fault h
        cases outcome with
        | ok => cases h
        | error fault' =>
            obtain rfl := Except.error.inj h
            exact ⟨_, t'', _, hwhole, by simp⟩

/-- A tree that was rebuilt is reachable. -/
theorem reachable_of_restore {shape : Shape} {metric : Metric} {snapshot : Snapshot}
    (h : restore snapshot shape metric = .ok (.ok t)) : Reachable shape metric t := by
  have hshape : shape.Sound := by
    by_contra hdefect
    obtain ⟨defect, hdefect⟩ := Option.ne_none_iff_exists'.1 hdefect
    rw [restore, ofShape, hdefect] at h
    cases h
  obtain ⟨outcome, hok, hrebuilds⟩ := exists_restore hshape metric snapshot
  obtain rfl := Except.ok.inj (h.symm.trans hok)
  obtain ⟨t₁, answers, hrun, hflush⟩ := hrebuilds.tree t rfl
  have hsync : t₁.perform .sync = .ok (t, .done (.ok ())) := by
    rw [perform, hflush]
    rfl
  exact ((Reachable.fresh hshape).performAll hrun).step hsync

end Tree

end Vantage
