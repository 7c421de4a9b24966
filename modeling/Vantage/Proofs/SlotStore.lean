/-
**Which slots of a store are occupied.**

A store is described by the list of its occupied slots. Each operation turns a store that a list
describes into one that another list describes, and says what it does to the contents of the other
slots; nothing else about cells and free slots is used anywhere.

Main definitions:

* `Slots.Holds` — the store is in order, and its occupied slots are those of a list;
* `Slots.taken` — the occupied slots in ascending order;
* `Slots.units` — the slots of a store without their contents;
* `Slots.heldAt` — the point in a slot, with the slot.

Main results:

* `Slots.Holds.alloc`, `Slots.Holds.free`, `Slots.Holds.replace`, `Slots.Holds.freeAll` — **what
  the operations do to the occupied slots**;
* `Slots.get?_replaceAll` — values that are put back stand in their slots again;
* `Slots.Holds.lend`, `Slots.Holds.get?_lend` — slots that are lent change nothing;
* `Slots.holds_units`, `Slots.units_alloc`, `Slots.units_freeAll` — which slots are taken and freed
  does not depend on the contents;
* `Slots.holdAll_eq` — looking up occupied slots succeeds.
-/

import Mathlib.Data.List.Nodup
import Vantage.Point

set_option relaxedAutoImplicit false
set_option autoImplicit false

namespace Vantage

namespace Slots

variable {α : Type} {s : Slots α} {l : List Nat}

/-! ### The occupied slots -/

/-- The store is in order, and the occupied slots are those of the list, each listed once. -/
structure Holds (s : Slots α) (l : List Nat) : Prop where
  nodup : l.Nodup
  occupied : ∀ slot, s.Occupied slot ↔ slot ∈ l
  /-- The free slots are those of the stack, each there once. -/
  vacant_nodup : s.vacant.Nodup
  vacant : ∀ slot, slot ∈ s.vacant ↔ slot < s.cells.size ∧ s.get? slot = none
  size : s.size = l.length

/-- The occupied slots in ascending order. -/
def taken (s : Slots α) : List Nat := (List.range s.cells.size).filter fun slot => s.Occupied slot

theorem occupied_iff {slot : Nat} : s.Occupied slot ↔ ∃ a, s.get? slot = some a :=
  Option.isSome_iff_exists

theorem lt_of_get? {slot : Nat} {a : α} (h : s.get? slot = some a) : slot < s.cells.size := by
  rw [get?, Option.join_eq_some_iff] at h
  exact (Array.getElem?_eq_some_iff.1 h).1

theorem mem_taken {slot : Nat} : slot ∈ s.taken ↔ s.Occupied slot := by
  rw [taken, List.mem_filter, decide_eq_true_iff, List.mem_range, and_iff_right_iff_imp]
  intro hocc
  obtain ⟨a, ha⟩ := occupied_iff.1 hocc
  exact lt_of_get? ha

namespace Holds

/-- The list names the occupied slots, each once. -/
theorem perm_taken (h : s.Holds l) : l.Perm s.taken :=
  (List.perm_ext_iff_of_nodup h.nodup (List.nodup_range.filter _)).2 fun slot =>
    (h.occupied slot).symm.trans mem_taken.symm

theorem mem_of_get? (h : s.Holds l) {slot : Nat} {a : α} (ha : s.get? slot = some a) :
    slot ∈ l :=
  (h.occupied slot).1 (occupied_iff.2 ⟨a, ha⟩)

theorem exists_get? (h : s.Holds l) {slot : Nat} (hs : slot ∈ l) : ∃ a, s.get? slot = some a :=
  occupied_iff.1 ((h.occupied slot).2 hs)

theorem get?_of_not_mem (h : s.Holds l) {slot : Nat} (hs : slot ∉ l) : s.get? slot = none := by
  cases ha : s.get? slot with
  | none => rfl
  | some a => exact absurd (h.mem_of_get? ha) hs

/-- The order of the list does not matter. -/
theorem perm {l' : List Nat} (h : s.Holds l) (hl : l.Perm l') : s.Holds l' where
  nodup := hl.nodup_iff.1 h.nodup
  occupied slot := (h.occupied slot).trans hl.mem_iff
  vacant_nodup := h.vacant_nodup
  vacant := h.vacant
  size := h.size.trans hl.length_eq

theorem empty : (Slots.empty : Slots α).Holds [] where
  nodup := .nil
  occupied slot := by simp [Occupied]
  vacant_nodup := .nil
  vacant slot := by simp [Slots.empty]
  size := rfl

end Holds

/-! ### Taking a slot -/

theorem alloc_of_cons {slot : Nat} {rest : List Nat} (h : s.vacant = slot :: rest) (a : α) :
    s.alloc a = (slot, ⟨s.cells.setIfInBounds slot (some a), rest, s.size + 1⟩) := by
  simp [alloc, h]

theorem alloc_of_nil (h : s.vacant = []) (a : α) :
    s.alloc a = (s.cells.size, ⟨s.cells.push (some a), [], s.size + 1⟩) := by
  simp [alloc, h]

/-- Taking a slot leaves the others as they are. -/
theorem get?_alloc_of_ne (s : Slots α) (a : α) {slot : Nat} (h : slot ≠ (s.alloc a).1) :
    (s.alloc a).2.get? slot = s.get? slot := by
  cases hv : s.vacant with
  | cons first rest =>
      rw [alloc_of_cons hv] at h ⊢
      simp only [get?]
      rw [Array.getElem?_setIfInBounds_ne (Ne.symm h)]
  | nil =>
      rw [alloc_of_nil hv] at h ⊢
      simp only [get?]
      rw [Array.getElem?_push, if_neg h]

namespace Holds

theorem get?_alloc (h : s.Holds l) (a : α) : (s.alloc a).2.get? (s.alloc a).1 = some a :=
  get?_alloc_self s a fun slot hs => ((h.vacant slot).1 hs).1

/-- A slot that is taken was free. -/
theorem alloc_not_mem (h : s.Holds l) (a : α) : (s.alloc a).1 ∉ l := by
  intro hs
  obtain ⟨b, hb⟩ := h.exists_get? hs
  cases hv : s.vacant with
  | cons first rest =>
      rw [alloc_of_cons hv] at hb
      have hfirst := ((h.vacant first).1 (by rw [hv]; exact List.mem_cons_self)).2
      exact absurd (hfirst.symm.trans hb) (by simp)
  | nil =>
      rw [alloc_of_nil hv] at hb
      exact absurd (lt_of_get? hb) (Nat.lt_irrefl _)

theorem vacant_alloc (h : s.Holds l) (a : α) (slot : Nat) :
    slot ∈ (s.alloc a).2.vacant ↔
      slot < (s.alloc a).2.cells.size ∧ (s.alloc a).2.get? slot = none := by
  rcases eq_or_ne slot (s.alloc a).1 with rfl | hne
  · -- the slot that is taken leaves the stack, or has never been on it
    rw [h.get?_alloc]
    cases hv : s.vacant with
    | cons first rest =>
        rw [alloc_of_cons hv]
        have := (List.nodup_cons.1 (hv ▸ h.vacant_nodup)).1
        simpa using this
    | nil =>
        rw [alloc_of_nil hv]
        simp
  · rw [get?_alloc_of_ne s a hne]
    have hvac := h.vacant slot
    cases hv : s.vacant with
    | cons first rest =>
        rw [alloc_of_cons hv] at hne ⊢
        rw [hv, List.mem_cons] at hvac
        simpa [show ¬ slot = first from hne] using hvac
    | nil =>
        rw [alloc_of_nil hv] at hne ⊢
        rw [hv] at hvac
        simp only [List.not_mem_nil, false_iff, not_and, Array.size_push] at hvac ⊢
        intro hlt
        exact hvac (Nat.lt_of_le_of_ne (Nat.le_of_lt_succ hlt) hne)

/-- **Taking a slot** adds it to the occupied ones. -/
theorem alloc (h : s.Holds l) (a : α) : (s.alloc a).2.Holds ((s.alloc a).1 :: l) where
  nodup := List.nodup_cons.2 ⟨h.alloc_not_mem a, h.nodup⟩
  occupied slot := by
    rcases eq_or_ne slot (s.alloc a).1 with rfl | hne
    · simp [Occupied, h.get?_alloc]
    · rw [Occupied, get?_alloc_of_ne s a hne, List.mem_cons, or_iff_right hne]
      exact h.occupied slot
  vacant_nodup := by
    have hnodup := h.vacant_nodup
    cases hv : s.vacant with
    | cons first rest =>
        rw [alloc_of_cons hv]
        exact (List.nodup_cons.1 (hv ▸ hnodup)).2
    | nil =>
        rw [alloc_of_nil hv]
        exact .nil
  vacant := h.vacant_alloc a
  size := by
    have hsize := h.size
    cases hv : s.vacant with
    | cons first rest => rw [alloc_of_cons hv]; simpa using hsize
    | nil => rw [alloc_of_nil hv]; simpa using hsize

end Holds

/-! ### Giving a slot back -/

theorem free_of_some {slot : Nat} {a : α} (h : s.get? slot = some a) :
    s.free slot =
      (some a, ⟨s.cells.setIfInBounds slot none, slot :: s.vacant, s.size - 1⟩) := by
  simp [free, h]

@[simp] theorem freeAll_nil (s : Slots α) : s.freeAll [] = s := rfl

theorem freeAll_append (s : Slots α) (slots slots' : List Nat) :
    s.freeAll (slots ++ slots') = (s.freeAll slots).freeAll slots' := List.foldl_append

@[simp] theorem freeAll_cons (s : Slots α) (slot : Nat) (slots : List Nat) :
    s.freeAll (slot :: slots) = (s.free slot).2.freeAll slots := rfl

theorem get?_freeAll_of_not_mem (s : Slots α) {slots : List Nat} {slot : Nat}
    (h : slot ∉ slots) : (s.freeAll slots).get? slot = s.get? slot := by
  induction slots generalizing s with
  | nil => rfl
  | cons first rest ih =>
      obtain ⟨hne, hrest⟩ := List.ne_and_not_mem_of_not_mem_cons h
      rw [freeAll_cons, ih _ hrest, get?_free_of_ne s hne]

/-- What is there after slots were given back was there before. -/
theorem get?_of_freeAll (s : Slots α) {slots : List Nat} {slot : Nat} {a : α}
    (h : (s.freeAll slots).get? slot = some a) : s.get? slot = some a := by
  induction slots generalizing s with
  | nil => exact h
  | cons first rest ih =>
      have hfirst := ih _ h
      rcases eq_or_ne slot first with rfl | hne
      · rw [get?_free_self] at hfirst
        cases hfirst
      · rwa [get?_free_of_ne s hne] at hfirst

namespace Holds

/-- **Giving a slot back** takes it out of the occupied ones. -/
theorem free {slot : Nat} (h : s.Holds (slot :: l)) : (s.free slot).2.Holds l := by
  obtain ⟨a, ha⟩ := h.exists_get? List.mem_cons_self
  obtain ⟨hnot, hnodup⟩ := List.nodup_cons.1 h.nodup
  have hself := get?_free_self s slot
  have hother := fun other (hne : other ≠ slot) => get?_free_of_ne s hne
  have hlt := lt_of_get? ha
  rw [free_of_some ha] at hself hother ⊢
  refine ⟨hnodup, ?_, ?_, ?_, ?_⟩
  · intro other
    rcases eq_or_ne other slot with rfl | hne
    · simp [Occupied, hself, hnot]
    · rw [Occupied, hother other hne]
      exact (h.occupied other).trans (by rw [List.mem_cons, or_iff_right hne])
  · refine List.nodup_cons.2 ⟨fun hv => ?_, h.vacant_nodup⟩
    rw [((h.vacant slot).1 hv).2] at ha
    exact absurd ha (by simp)
  · intro other
    rcases eq_or_ne other slot with rfl | hne
    · simp [hself, hlt]
    · rw [hother other hne, List.mem_cons, or_iff_right hne, Array.size_setIfInBounds]
      exact h.vacant other
  · rw [h.size]
    rfl

/-- Giving several slots back. -/
theorem freeAll {slots : List Nat} (h : s.Holds (slots ++ l)) : (s.freeAll slots).Holds l := by
  induction slots generalizing s with
  | nil => exact h
  | cons slot slots ih => exact ih h.free

/-- A store from which all its slots have been freed is empty. -/
theorem isEmpty_freeAll {slots : List Nat} (h : s.Holds l) (hslots : slots.Perm l) :
    (s.freeAll slots).isEmpty = true := by
  have hholds : s.Holds (slots ++ []) := by
    rw [List.append_nil]
    exact h.perm hslots.symm
  rw [isEmpty, hholds.freeAll.size]
  rfl

/-- **Replacing the contents of a slot** leaves the occupied slots as they are. -/
theorem replace (h : s.Holds l) (slot : Nat) (a : α) : (s.replace slot a).2.Holds l := by
  cases hs : s.get? slot with
  | none => rw [replace_eq_none a hs]; exact h
  | some old =>
      have hself := get?_replace_self a hs
      have hother := fun other (hne : other ≠ slot) => get?_replace_of_ne s a hne
      rw [Slots.replace, hs] at hself hother ⊢
      refine ⟨h.nodup, ?_, h.vacant_nodup, ?_, h.size⟩
      · intro other
        rcases eq_or_ne other slot with rfl | hne
        · rw [Occupied, hself]
          exact ⟨fun _ => h.mem_of_get? hs, fun _ => rfl⟩
        · rw [Occupied, hother other hne]
          exact h.occupied other
      · intro other
        rcases eq_or_ne other slot with rfl | hne
        · rw [hself]
          refine ⟨fun hv => ?_, fun hv => absurd hv.2 (by simp)⟩
          exact absurd (((h.vacant _).1 hv).2.symm.trans hs) (by simp)
        · rw [hother other hne, Array.size_setIfInBounds]
          exact h.vacant other

end Holds

/-! ### Putting values back -/

@[simp] theorem replaceAll_cons (s : Slots α) (x : Nat × α) (values : List (Nat × α)) :
    s.replaceAll (x :: values) = (s.replace x.1 x.2).2.replaceAll values := rfl

theorem get?_replaceAll_of_not_mem (s : Slots α) {values : List (Nat × α)} {slot : Nat}
    (h : slot ∉ values.map Prod.fst) : (s.replaceAll values).get? slot = s.get? slot := by
  induction values generalizing s with
  | nil => rfl
  | cons x rest ih =>
      obtain ⟨hne, hrest⟩ := List.ne_and_not_mem_of_not_mem_cons h
      rw [replaceAll_cons, ih _ hrest, get?_replace_of_ne s x.2 hne]

/-- Where one value is put back, however often, that value is. -/
theorem get?_replaceAll (s : Slots α) {values : List (Nat × α)} {slot : Nat} {a : α}
    (hmem : slot ∈ values.map Prod.fst) (hocc : s.Occupied slot)
    (hvalues : ∀ x ∈ values, x.1 = slot → x.2 = a) : (s.replaceAll values).get? slot = some a := by
  induction values generalizing s with
  | nil => exact absurd hmem List.not_mem_nil
  | cons x rest ih =>
      obtain ⟨hx, hothers⟩ := List.forall_mem_cons.1 hvalues
      obtain ⟨old, hold⟩ := occupied_iff.1 hocc
      have hocc' : (s.replace x.1 x.2).2.Occupied slot := by
        rcases eq_or_ne slot x.1 with rfl | hne
        · exact occupied_iff.2 ⟨x.2, get?_replace_self x.2 hold⟩
        · rwa [Occupied, get?_replace_of_ne s x.2 hne]
      rw [replaceAll_cons]
      by_cases hrest : slot ∈ rest.map Prod.fst
      · exact ih _ hrest hocc' hothers
      · -- this is the last time
        have hslot : slot = x.1 := (List.mem_cons.1 hmem).resolve_right hrest
        rw [get?_replaceAll_of_not_mem _ hrest, ← hx hslot.symm, hslot]
        exact get?_replace_self x.2 (hslot ▸ hold)

/-! ### Lending slots -/

theorem allocMany_succ (s : Slots α) (a : α) (n : Nat) :
    s.allocMany a (n + 1) =
      ((s.alloc a).1 :: ((s.alloc a).2.allocMany a n).1, ((s.alloc a).2.allocMany a n).2) := rfl

/-- One more slot is taken last. -/
theorem allocMany_snoc {s s' : Slots α} {a : α} {n : Nat} {slots : List Nat}
    (h : s.allocMany a n = (slots, s')) :
    s.allocMany a (n + 1) = (slots ++ [(s'.alloc a).1], (s'.alloc a).2) := by
  induction n generalizing s slots with
  | zero =>
      obtain ⟨rfl, rfl⟩ := Prod.mk.inj h
      rfl
  | succ n ih =>
      rw [allocMany_succ] at h
      obtain ⟨rfl, rfl⟩ := Prod.mk.inj h
      rw [allocMany_succ, ih rfl]
      rfl

namespace Holds

/-- Slots that are taken one after another are different, and join the occupied ones. -/
theorem allocMany (h : s.Holds l) (a : α) (n : Nat) :
    (s.allocMany a n).2.Holds ((s.allocMany a n).1 ++ l) := by
  induction n generalizing s l with
  | zero => exact h
  | succ n ih =>
      rw [allocMany_succ]
      exact (ih (h.alloc a)).perm List.perm_middle

theorem get?_allocMany (h : s.Holds l) (a : α) (n : Nat) {slot : Nat} (hs : slot ∈ l) :
    (s.allocMany a n).2.get? slot = s.get? slot := by
  induction n generalizing s l with
  | zero => rfl
  | succ n ih =>
      rw [allocMany_succ]
      refine (ih (h.alloc a) (List.mem_cons_of_mem _ hs)).trans ?_
      exact get?_alloc_of_ne s a fun heq => h.alloc_not_mem a (heq ▸ hs)

/-- Lending slots leaves the occupied slots as they are. -/
theorem lend (h : s.Holds l) (a : α) (n : Nat) : (s.lend a n).Holds l :=
  (h.allocMany a n).freeAll

/-- Lending slots changes the contents of none. -/
theorem get?_lend (h : s.Holds l) (a : α) (n : Nat) (slot : Nat) :
    (s.lend a n).get? slot = s.get? slot := by
  by_cases hs : slot ∈ l
  · have hnot : slot ∉ (s.allocMany a n).1 := fun hmem =>
      List.disjoint_of_nodup_append (h.allocMany a n).nodup hmem hs
    exact (get?_freeAll_of_not_mem _ hnot).trans (h.get?_allocMany a n hs)
  · rw [h.get?_of_not_mem hs, (h.lend a n).get?_of_not_mem hs]

end Holds

/-! ### The slots without their contents -/

section units

/-- The store with its contents forgotten. -/
def units (s : Slots α) : Slots Unit where
  cells := s.cells.map (Option.map fun _ => ())
  vacant := s.vacant
  size := s.size

@[simp] theorem units_empty : (empty : Slots α).units = .empty := by simp [units, empty]

@[simp] theorem size_units (s : Slots α) : s.units.size = s.size := rfl

@[simp] theorem vacant_units (s : Slots α) : s.units.vacant = s.vacant := rfl

@[simp] theorem size_cells_units (s : Slots α) : s.units.cells.size = s.cells.size :=
  Array.size_map

@[simp] theorem get?_units (s : Slots α) (slot : Nat) :
    s.units.get? slot = (s.get? slot).map fun _ => () := by
  simp only [units, get?, Array.getElem?_map]
  cases s.cells[slot]? <;> rfl

theorem holds_units : s.units.Holds l ↔ s.Holds l := by
  constructor <;> rintro ⟨hnodup, hocc, hvnodup, hvacant, hsize⟩ <;>
    exact ⟨hnodup, by simpa [Occupied] using hocc, hvnodup, by simpa using hvacant, hsize⟩

/-- Which slot is taken does not depend on contents. -/
theorem units_alloc (s : Slots α) (a : α) :
    s.units.alloc () = ((s.alloc a).1, (s.alloc a).2.units) := by
  cases hv : s.vacant with
  | cons slot rest =>
      rw [alloc_of_cons hv, alloc_of_cons (show s.units.vacant = _ from hv)]
      simp [units]
  | nil =>
      rw [alloc_of_nil hv, alloc_of_nil (show s.units.vacant = _ from hv)]
      simp [units]

@[simp] theorem units_free (s : Slots α) (slot : Nat) :
    s.units.free slot = ((s.free slot).1.map fun _ => (), (s.free slot).2.units) := by
  cases h : s.get? slot with
  | none =>
      rw [free_eq_none h, free_eq_none (by rw [get?_units, h]; rfl)]
      rfl
  | some a =>
      rw [free_of_some h, free_of_some (a := ()) (by rw [get?_units, h]; rfl)]
      simp [units]

theorem units_freeAll (s : Slots α) (slots : List Nat) :
    (s.freeAll slots).units = s.units.freeAll slots := by
  induction slots generalizing s with
  | nil => rfl
  | cons slot rest ih => rw [freeAll_cons, freeAll_cons, ih, units_free]

@[simp] theorem units_replace (s : Slots α) (slot : Nat) (a : α) :
    (s.replace slot a).2.units = s.units := by
  cases h : s.get? slot with
  | none => rw [replace_eq_none a h]
  | some old =>
      have hcell : s.cells[slot]? = some (some old) := by
        rwa [get?, Option.join_eq_some_iff] at h
      have hset : (s.cells.map (Option.map fun _ => ())).setIfInBounds slot (some ()) =
          s.cells.map (Option.map fun _ => ()) := by
        refine Array.ext_getElem? fun other => ?_
        rw [Array.getElem?_setIfInBounds]
        split
        next heq =>
          subst heq
          rw [if_pos (by simpa using (Array.getElem?_eq_some_iff.1 hcell).1)]
          simp [hcell]
        next => rfl
      simp only [replace, h, units, Array.map_setIfInBounds, Option.map_some, hset]

theorem units_replaceAll (s : Slots α) (values : List (Nat × α)) :
    (s.replaceAll values).units = s.units := by
  induction values generalizing s with
  | nil => rfl
  | cons x rest ih => rw [replaceAll_cons, ih, units_replace]

end units

/-! ### Points in slots -/

section points

variable (points : Slots Point)

/-- The point in a slot, with the slot. A free slot is taken to hold a dead point. -/
def heldAt (slot : Nat) : Held := ⟨slot, (points.get? slot).getD ⟨0, 0, false⟩⟩

@[simp] theorem slot_heldAt (slot : Nat) : (points.heldAt slot).slot = slot := rfl

theorem heldAt_of_get? {slot : Nat} {p : Point} (h : points.get? slot = some p) :
    points.heldAt slot = ⟨slot, p⟩ := by
  rw [heldAt, h, Option.getD_some]

theorem hold_eq {slot : Nat} (h : points.Occupied slot) :
    points.hold slot = .ok (points.heldAt slot) := by
  obtain ⟨p, hp⟩ := occupied_iff.1 h
  rw [hold_eq_ok_iff, heldAt_of_get? points hp]
  exact ⟨rfl, hp⟩

/-- What is looked up depends on the slots asked for alone. -/
theorem holdAll_congr {points points' : Slots Point} {slots : List Nat}
    (h : ∀ slot ∈ slots, points'.get? slot = points.get? slot) :
    points'.holdAll slots = points.holdAll slots := by
  induction slots with
  | nil => rfl
  | cons slot rest ih =>
      obtain ⟨hslot, hrest⟩ := List.forall_mem_cons.1 h
      rw [holdAll, holdAll, hold, hold, point, point, hslot, ih hrest]

/-- Looking up occupied slots succeeds. -/
theorem holdAll_eq {slots : List Nat} (h : ∀ slot ∈ slots, points.Occupied slot) :
    points.holdAll slots = .ok (slots.map points.heldAt) := by
  induction slots with
  | nil => rfl
  | cons slot rest ih =>
      rw [holdAll_cons_eq_ok_iff]
      exact ⟨_, _, points.hold_eq (h slot List.mem_cons_self),
        ih fun other ho => h other (List.mem_cons_of_mem _ ho), rfl⟩

theorem setLive_eq {slot : Nat} {p : Point} (h : points.get? slot = some p) (live : Bool) :
    points.setLive slot live = .ok (points.replace slot { p with live }).2 := by
  rw [setLive, (point_eq_ok_iff points).2 h]
  rfl

end points

end Slots

end Vantage
