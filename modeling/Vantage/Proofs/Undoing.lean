/-
**A placement that is broken off is undone.**

A placement changes nodes where they lie, and what it has changed before a fault is not lost with
the fault. It changes a node only after it has saved it, or if it has made it; and it frees no slot.
From every point to which a placement can come, whatever it has done by then, undoing leads back to
the nodes of the start: the saved ones are put back, and the new ones go.

Main definitions:

* `Work.Change` — what a placement may do in one step to what it works on;
* `Work.Undoable` — the journal tells what was there at the start.

Main results:

* `Work.Undoable.change` — **a step keeps the journal true**;
* `Work.Undoable.get?_undo`, `Work.Undoable.units_undo` — undoing what the journal tells restores
  the start;
* `Placing.changes_place` — a placement does nothing but such steps, however it ends;
* `Work.undo_of_changes` — **whatever was done by such steps is undone**.
-/

import Mathlib.Logic.Relation
import Vantage.Journal
import Vantage.Proofs.Outcomes
import Vantage.Proofs.SlotStore

set_option relaxedAutoImplicit false
set_option autoImplicit false

namespace Vantage

theorem Slots.cell_eq_ok_iff {nodes : Slots Cell} {slot : Nat} {c : Cell} :
    nodes.cell slot = .ok c ↔ nodes.get? slot = some c := by
  unfold Slots.cell
  split <;> simp_all

/-! ### The journal tells what was there -/

namespace Work

variable {w₀ w w' : Work} {l : List Nat}

/-- What a placement may do in one step to what it works on. A node is changed only if it needs no
saving any more. -/
inductive Change : Work → Work → Prop where
  | saves {w : Work} {slot : Nat} {cell : Cell} (hnew : slot ∉ w.journal.touched)
      (hcell : w.nodes.get? slot = some cell) : Change w { w with journal := { w.journal with
        touched := w.journal.touched.insert slot
        saved := w.journal.saved ++ [(slot, cell)] } }
  | writes {w : Work} {slot : Nat} (cell : Cell) (htouched : slot ∈ w.journal.touched) :
      Change w (w.write slot cell)
  | mints (w : Work) (cell : Cell) : Change w (w.mint cell).2
  | reroots (w : Work) (slot : Nat) : Change w (w.reroot slot)
  | discards (w : Work) (slot : Nat) : Change w (w.discard slot)
  | buries (w : Work) (dead : List Held) : Change w (w.bury dead)
  | revives (w : Work) (points : Slots Point) : Change w { w with points }

/-- Any number of such steps. -/
abbrev Changes : Work → Work → Prop := Relation.ReflTransGen Change

/-- **The journal tells what was there at the start**: the slots in use are those of the start and
those of the new nodes, which were taken one after another; the saved nodes are as they were; and so
is every node that is neither new nor saved. -/
structure Undoable (w₀ w : Work) : Prop where
  oldRoot : w.journal.oldRoot = w₀.root
  slots : w₀.nodes.units.allocMany () w.journal.created.length =
    (w.journal.created, w.nodes.units)
  saved : ∀ x ∈ w.journal.saved, w₀.nodes.get? x.1 = some x.2
  kept : ∀ slot, slot ∉ w.journal.created → slot ∉ w.journal.saved.map Prod.fst →
    w.nodes.get? slot = w₀.nodes.get? slot
  touched : ∀ slot, slot ∈ w.journal.touched ↔
    slot ∈ w.journal.created ∨ slot ∈ w.journal.saved.map Prod.fst

namespace Undoable

/-- At the start there is nothing to tell. -/
theorem start (hjournal : w₀.journal = { oldRoot := w₀.root }) : Undoable w₀ w₀ where
  oldRoot := by rw [hjournal]
  slots := by rw [hjournal]; rfl
  saved := by simp [hjournal]
  kept _ _ _ := rfl
  touched := by simp [hjournal]

/-- **A step keeps the journal true.** -/
theorem change (h : Undoable w₀ w) (hc : Change w w') : Undoable w₀ w' := by
  cases hc with
  | @saves slot cell hnew hcell =>
      -- a node that is saved now is neither new nor saved before, so it is as it was at the start
      obtain ⟨hcreated, hsaved⟩ := not_or.1 (mt (h.touched slot).2 hnew)
      refine ⟨h.oldRoot, h.slots, ?_, fun other hother hothers => ?_, fun other => ?_⟩
      · intro x hx
        rcases List.mem_append.1 hx with hx | hx
        · exact h.saved x hx
        · obtain rfl := List.mem_singleton.1 hx
          rw [← h.kept slot hcreated hsaved, hcell]
      · rw [List.map_append, List.mem_append, not_or] at hothers
        exact h.kept other hother hothers.1
      · rw [Std.TreeSet.mem_insert, Std.LawfulEqCmp.compare_eq_iff_eq, h.touched, List.map_append,
          List.mem_append, List.map_singleton, List.mem_singleton, @eq_comm _ slot other]
        tauto
  | @writes slot cell htouched =>
      refine ⟨h.oldRoot, h.slots.trans ?_, h.saved, fun other hother hothers => ?_, h.touched⟩
      · rw [write, Slots.units_replace]
      · have hne : other ≠ slot := by
          rintro rfl
          exact ((h.touched other).1 htouched).elim hother hothers
        exact (Slots.get?_replace_of_ne _ _ hne).trans (h.kept other hother hothers)
  | mints cell =>
      have hsnoc := Slots.allocMany_snoc h.slots
      rw [Slots.units_alloc w.nodes cell] at hsnoc
      refine ⟨h.oldRoot, ?_, h.saved, fun other hother hothers => ?_, fun other => ?_⟩
      · simpa [mint] using hsnoc
      · simp only [mint, List.mem_append, List.mem_singleton, not_or] at hother
        exact (Slots.get?_alloc_of_ne _ _ hother.2).trans (h.kept other hother.1 hothers)
      · simp only [mint, Std.TreeSet.mem_insert, Std.LawfulEqCmp.compare_eq_iff_eq, h.touched,
          List.mem_append, List.mem_singleton, @eq_comm _ _ other]
        tauto
  | reroots | discards | buries | revives => exact ⟨h.oldRoot, h.slots, h.saved, h.kept, h.touched⟩

theorem changes (h : Undoable w₀ w) (hc : Changes w w') : Undoable w₀ w' := by
  induction hc with
  | refl => exact h
  | tail _ hstep ih => exact ih.change hstep

/-! ### Undoing -/

/-- The slots of the new nodes were free at the start, and the others are as they were. -/
theorem holds (h : Undoable w₀ w) (hw₀ : w₀.nodes.Holds l) :
    w.nodes.Holds (w.journal.created ++ l) := by
  have hmany := (Slots.holds_units.2 hw₀).allocMany () w.journal.created.length
  rw [h.slots] at hmany
  exact Slots.holds_units.1 hmany

/-- **Undoing restores the nodes of the start.** -/
theorem get?_undo (h : Undoable w₀ w) (hw₀ : w₀.nodes.Holds l) (slot : Nat) :
    w.undo.nodes.get? slot = w₀.nodes.get? slot := by
  have hw := h.holds hw₀
  by_cases hcreated : slot ∈ w.journal.created
  · -- a new node goes, and its slot was free
    have hfree : slot ∉ l := fun hl =>
      List.disjoint_of_nodup_append hw.nodup hcreated hl
    have hundone : w.undo.nodes.Holds l := by
      refine Slots.Holds.freeAll (Slots.holds_units.1 ?_)
      rw [Slots.units_replaceAll]
      exact Slots.holds_units.2 hw
    rw [hundone.get?_of_not_mem hfree, hw₀.get?_of_not_mem hfree]
  · refine (Slots.get?_freeAll_of_not_mem _ hcreated).trans ?_
    by_cases hsaved : slot ∈ w.journal.saved.map Prod.fst
    · -- a saved node is put back
      obtain ⟨⟨_, cell⟩, hx, rfl⟩ := List.mem_map.1 hsaved
      have hcell := h.saved _ hx
      have hocc := (hw.occupied _).2 (List.mem_append_right _ (hw₀.mem_of_get? hcell))
      rw [hcell]
      refine Slots.get?_replaceAll _ hsaved hocc fun y hy hslot => ?_
      exact Option.some.inj ((h.saved y hy).symm.trans (hslot ▸ hcell))
    · -- any other node has not been changed
      rw [Slots.get?_replaceAll_of_not_mem _ hsaved, h.kept slot hcreated hsaved]

/-- The slots of the new nodes are given back in the order in which they were taken. -/
theorem units_undo (h : Undoable w₀ w) :
    w.undo.nodes.units = w₀.nodes.units.lend () w.journal.created.length := by
  rw [undo, Slots.units_freeAll, Slots.units_replaceAll, Slots.lend, h.slots]

end Undoable

/-- **Whatever was done is undone**: after any number of steps of a placement, undoing restores the
root, every node and the slots in use. -/
theorem undo_of_changes (hc : Changes w₀ w) (hw₀ : w₀.nodes.Holds l)
    (hjournal : w₀.journal = { oldRoot := w₀.root }) :
    w.undo.root = w₀.root ∧ (∀ slot, w.undo.nodes.get? slot = w₀.nodes.get? slot) ∧
      w.undo.nodes.units = w₀.nodes.units.lend () w.journal.created.length := by
  have h := (Undoable.start hjournal).changes hc
  exact ⟨h.oldRoot, h.get?_undo hw₀, h.units_undo⟩

end Work

/-! ### Steps of a placement, taken apart -/

namespace Placing

variable {α β : Type} {shape : Shape} {d : Metric}

/-- **Two steps**: the second goes on from what the first has left, unless a fault stops it. -/
theorem bind_apply (x : Placing α) (f : α → Placing β) (w : Work) :
    (x >>= f) w = x w >>= fun o => match o.1 with
      | .ok a => f a o.2
      | .error fault => .ok (.error fault, o.2) := by
  refine congrArg (x w >>= ·) (funext fun after => ?_)
  obtain ⟨o, w₁⟩ := after
  cases o <;> rfl

theorem bind_of_ok {x : Placing α} {a : α} {w w₁ : Work} (h : x w = .ok (.ok a, w₁))
    (f : α → Placing β) : (x >>= f) w = f a w₁ := by
  rw [bind_apply, h]
  rfl

theorem bind_of_error {x : Placing α} {fault : Fault} {w w₁ : Work}
    (h : x w = .ok (.error fault, w₁)) (f : α → Placing β) :
    (x >>= f) w = .ok (.error fault, w₁) := by
  rw [bind_apply, h]
  rfl

theorem bind_eq_ok {x : Placing α} {f : α → Placing β} {w w' : Work} {r : Except Fault β}
    (h : (x >>= f) w = .ok (r, w')) :
    (∃ a w₁, x w = .ok (.ok a, w₁) ∧ f a w₁ = .ok (r, w')) ∨
      ∃ fault, x w = .ok (.error fault, w') ∧ r = .error fault := by
  rw [bind_apply] at h
  obtain ⟨⟨o, w₁⟩, hx, hf⟩ := Vantage.bind_eq_ok.1 h
  cases o with
  | ok a => exact .inl ⟨a, w₁, hx, hf⟩
  | error fault =>
      obtain ⟨rfl, rfl⟩ := Prod.mk.inj (Except.ok.inj hf)
      exact .inr ⟨fault, hx, rfl⟩

@[simp] theorem get_bind (f : Work → Placing β) (w : Work) :
    ((get : Placing Work) >>= f) w = f w w := rfl

@[simp] theorem set_bind (w₁ : Work) (f : PUnit → Placing β) (w : Work) :
    ((set w₁ : Placing PUnit) >>= f) w = f ⟨⟩ w₁ := rfl

@[simp] theorem set_apply (w₁ w : Work) : (set w₁ : Placing PUnit) w = .ok (.ok ⟨⟩, w₁) := rfl

@[simp] theorem modify_apply (g : Work → Work) (w : Work) :
    (modify g : Placing PUnit) w = .ok (.ok ⟨⟩, g w) := rfl

@[simp] theorem breach_bind (y : Except Breach α) (f : α → Placing β) (w : Work) :
    ((liftM y : Placing α) >>= f) w = y >>= fun a => f a w := by
  cases y <;> rfl

@[simp] theorem fault_bind (y : Except Fault α) (f : α → Placing β) (w : Work) :
    ((liftM y : Placing α) >>= f) w = match y with
      | .ok a => f a w
      | .error fault => .ok (.error fault, w) := by
  cases y <;> rfl

@[simp] theorem save_bind (slot : Nat) (f : Unit → Placing β) (w : Work) :
    (save slot >>= f) w = w.save slot >>= fun w₁ => f () w₁ := by
  rw [bind_apply]
  simp only [save, get_bind, breach_bind, set_apply]
  cases w.save slot <;> rfl

theorem link_child (parent index slot : Nat) (w : Work) :
    link (.child parent index) slot w = w.save parent >>= fun w₁ =>
      w₁.nodes.cell parent >>= fun cell => match cell.setChild index slot with
        | .ok cell => .ok (.ok ⟨⟩, w₁.write parent cell)
        | .error fault => .ok (.error fault, w₁) := by
  simp only [link, save_bind, get_bind, breach_bind, fault_bind, modify_apply]
  refine congrArg _ (funext fun w₁ => congrArg _ (funext fun cell => ?_))
  cases cell.setChild index slot <;> rfl

theorem absorbAt_apply (slot : Nat) (points : List Held) (w : Work) :
    absorbAt shape d slot points w = w.nodes.cell slot >>= fun cell =>
      cell.lookUp w.points >>= fun node =>
        let taken := node.takeIn shape d points
        let w₁ := w.write slot (taken.left.mapPoints Held.slot)
        match taken.outcome with
        | .ok absorbed => w₁.revive absorbed.stored >>= fun w₂ => .ok (.ok absorbed, w₂)
        | .error fault => .ok (.error fault, w₁) := by
  simp only [absorbAt, get_bind, breach_bind, set_bind, fault_bind]
  refine congrArg _ (funext fun cell => congrArg _ (funext fun node => ?_))
  cases (node.takeIn shape d points).outcome <;> rfl

theorem build_apply (points : List Held) (w : Work) :
    build shape d points w =
      let built := Node.build shape d points
      match built.outcome with
      | .ok absorbed => w.revive absorbed.stored >>= fun w₁ =>
          .ok (.ok (built.left.mapPoints Held.slot, absorbed), w₁)
      | .error fault => .ok (.error fault, w) := by
  simp only [build, get_bind, breach_bind, fault_bind]
  cases (Node.build shape d points : Attempt (Node Held Nat) _).outcome <;> rfl

/-! ### What a placement does, it can undo -/

variable {w w' : Work} {slot : Nat} {site : Site} {points : List Held}

/-- A node that has been saved needs no saving any more. -/
theorem changes_save (h : w.save slot = .ok w') :
    Work.Changes w w' ∧ slot ∈ w'.journal.touched := by
  unfold Work.save at h
  split at h
  next htouched =>
    obtain rfl := Except.ok.inj h
    exact ⟨.refl, Std.TreeSet.mem_iff_contains.2 htouched⟩
  next hnew =>
    obtain ⟨cell, hcell, h⟩ := Vantage.bind_eq_ok.1 h
    obtain rfl := Except.ok.inj h
    refine ⟨.single (.saves (mt Std.TreeSet.mem_iff_contains.1 hnew) ?_), by simp⟩
    exact Slots.cell_eq_ok_iff.1 hcell

theorem changes_revive {stored : List Held} (h : w.revive stored = .ok w') :
    Work.Changes w w' := by
  obtain ⟨points, -, h⟩ := Vantage.bind_eq_ok.1 h
  obtain rfl := Except.ok.inj h
  exact .single (.revives w points)

theorem changes_standing {r : Except Fault (Option Nat)} (h : standing site w = .ok (r, w')) :
    w' = w := by
  cases site with
  | root =>
      obtain ⟨-, rfl⟩ := Prod.mk.inj (Except.ok.inj h)
      rfl
  | child parent index =>
      simp only [standing, get_bind, breach_bind] at h
      obtain ⟨cell, -, h⟩ := Vantage.bind_eq_ok.1 h
      exact (Prod.mk.inj (Except.ok.inj h)).2.symm

theorem changes_link {r : Except Fault Unit} (h : link site slot w = .ok (r, w')) :
    Work.Changes w w' := by
  cases site with
  | root =>
      obtain ⟨-, rfl⟩ := Prod.mk.inj (Except.ok.inj h)
      exact .single (.reroots w slot)
  | child parent index =>
      rw [link_child] at h
      obtain ⟨w₁, hsave, h⟩ := Vantage.bind_eq_ok.1 h
      obtain ⟨hchanges, htouched⟩ := changes_save hsave
      obtain ⟨cell, -, h⟩ := Vantage.bind_eq_ok.1 h
      split at h
      next cell' _ =>
        obtain ⟨-, rfl⟩ := Prod.mk.inj (Except.ok.inj h)
        exact hchanges.tail (.writes cell' htouched)
      next =>
        obtain ⟨-, rfl⟩ := Prod.mk.inj (Except.ok.inj h)
        exact hchanges

/-- A node that needs no saving may take points, and may fail to. -/
theorem changes_absorbAt {r : Except Fault (Absorbed Nat)} (htouched : slot ∈ w.journal.touched)
    (h : absorbAt shape d slot points w = .ok (r, w')) : Work.Changes w w' := by
  rw [absorbAt_apply] at h
  obtain ⟨cell, -, h⟩ := Vantage.bind_eq_ok.1 h
  obtain ⟨node, -, h⟩ := Vantage.bind_eq_ok.1 h
  have hwrite (left : Cell) : Work.Changes w (w.write slot left) := .single (.writes left htouched)
  dsimp only at h
  split at h
  next absorbed _ =>
    obtain ⟨w₂, hrevive, h⟩ := Vantage.bind_eq_ok.1 h
    obtain ⟨-, rfl⟩ := Prod.mk.inj (Except.ok.inj h)
    exact (hwrite _).trans (changes_revive hrevive)
  next =>
    obtain ⟨-, rfl⟩ := Prod.mk.inj (Except.ok.inj h)
    exact hwrite _

theorem changes_build {r : Except Fault (Cell × Absorbed Nat)}
    (h : build shape d points w = .ok (r, w')) : Work.Changes w w' := by
  rw [build_apply] at h
  dsimp only at h
  split at h
  next absorbed _ =>
    obtain ⟨w₁, hrevive, h⟩ := Vantage.bind_eq_ok.1 h
    obtain ⟨-, rfl⟩ := Prod.mk.inj (Except.ok.inj h)
    exact changes_revive hrevive
  next =>
    obtain ⟨-, rfl⟩ := Prod.mk.inj (Except.ok.inj h)
    exact .refl

/-- Linking a new node into its place, and what follows. -/
theorem changes_link_bury {site : Site} {dead : List Held} {next : List Pending}
    {r : Except Fault (List Pending)}
    (h : (link site slot >>= fun _ => modify (·.bury dead) >>= fun _ => pure next : Placing _) w =
      .ok (r, w')) : Work.Changes w w' := by
  rcases bind_eq_ok h with ⟨_, w₁, hlink, h⟩ | ⟨fault, hlink, -⟩
  · obtain ⟨-, rfl⟩ := Prod.mk.inj (Except.ok.inj h)
    exact (changes_link hlink).tail (.buries w₁ dead)
  · exact changes_link hlink

theorem changes_extend {r : Except Fault (List Pending)}
    (h : extend shape d site slot points w = .ok (r, w')) : Work.Changes w w' := by
  rw [extend, save_bind] at h
  obtain ⟨w₁, hsave, h⟩ := Vantage.bind_eq_ok.1 h
  obtain ⟨hsaved, htouched⟩ := changes_save hsave
  rcases bind_eq_ok h with ⟨absorbed, w₂, habsorb, h⟩ | ⟨fault, habsorb, -⟩
  · have hchanges := hsaved.trans (changes_absorbAt htouched habsorb)
    obtain ⟨replacement, onward, dead, stored⟩ := absorbed
    cases replacement with
    | some branch =>
        have hminted := hchanges.tail (.mints w₂ ((Node.branch branch).mapPoints Held.slot))
        exact (hminted.tail (.discards _ slot)).trans (changes_link_bury h)
    | none =>
        obtain ⟨-, rfl⟩ := Prod.mk.inj (Except.ok.inj h)
        exact hchanges.tail (.buries w₂ dead)
  · exact hsaved.trans (changes_absorbAt htouched habsorb)

theorem changes_plant {r : Except Fault (List Pending)}
    (h : plant shape d site points w = .ok (r, w')) : Work.Changes w w' := by
  rcases bind_eq_ok h with ⟨⟨cell, absorbed⟩, w₁, hbuild, h⟩ | ⟨fault, hbuild, -⟩
  · exact ((changes_build hbuild).tail (.mints w₁ cell)).trans (changes_link_bury h)
  · exact changes_build hbuild

theorem changes_serve {pending : Pending} {r : Except Fault (List Pending)}
    (h : serve shape d pending w = .ok (r, w')) : Work.Changes w w' := by
  rcases bind_eq_ok h with ⟨standing, w₁, hstanding, h⟩ | ⟨fault, hstanding, -⟩
  · obtain rfl := changes_standing hstanding
    cases standing with
    | some slot => exact changes_extend h
    | none => exact changes_plant h
  · obtain rfl := changes_standing hstanding
    exact .refl

theorem changes_serveAll {pending : List Pending} {r : Except Fault (List Pending)}
    (h : serveAll shape d pending w = .ok (r, w')) : Work.Changes w w' := by
  induction pending generalizing w r with
  | nil =>
      obtain ⟨-, rfl⟩ := Prod.mk.inj (Except.ok.inj h)
      exact .refl
  | cons first rest ih =>
      rcases bind_eq_ok h with ⟨here, w₁, hfirst, h⟩ | ⟨fault, hfirst, -⟩
      · refine (changes_serve hfirst).trans ?_
        rcases bind_eq_ok h with ⟨others, w₂, hrest, h⟩ | ⟨fault, hrest, -⟩
        · obtain ⟨-, rfl⟩ := Prod.mk.inj (Except.ok.inj h)
          exact ih hrest
        · exact ih hrest
      · exact changes_serve hfirst

theorem changes_settle {rounds : Nat} {pending : List Pending} {r : Except Fault Unit}
    (h : settle shape d rounds pending w = .ok (r, w')) : Work.Changes w w' := by
  induction rounds generalizing w pending with
  | zero =>
      cases pending with
      | nil =>
          obtain ⟨-, rfl⟩ := Prod.mk.inj (Except.ok.inj h)
          exact .refl
      | cons first rest => cases h
  | succ rounds ih =>
      cases pending with
      | nil =>
          obtain ⟨-, rfl⟩ := Prod.mk.inj (Except.ok.inj h)
          exact .refl
      | cons first rest =>
          rcases bind_eq_ok h with ⟨next, w₁, hround, h⟩ | ⟨fault, hround, -⟩
          · exact (changes_serveAll hround).trans (ih h)
          · exact changes_serveAll hround

/-- **A placement does nothing but what the journal can undo**, however it ends. -/
theorem changes_place {batch : List Held} {r : Except Fault Unit}
    (h : place shape d batch w = .ok (r, w')) : Work.Changes w w' := by
  rw [place, get_bind] at h
  exact changes_settle h

end Placing

end Vantage
