/-
**Numbered slots that are handed out, given back and handed out again.**

A value put into the store gets a slot number, and everything else refers to it by that number.
A slot that is given back goes onto a stack; the next value takes the most recently freed slot,
and a new number is issued only while the stack is empty.

Main definitions:

* `Vantage.Slots` — the store: cells, the stack of free slots, the number of occupied cells;
* `Slots.alloc`, `Slots.free`, `Slots.replace`, `Slots.get?` — the operations; freeing or
  replacing a slot that holds nothing changes nothing;
* `Slots.lend` — taking a number of slots and giving them back in the order taken.

Main results:

* `Slots.get?_alloc_self`, `Slots.get?_free_self`, `Slots.get?_replace_self` — what an operation
  does to its own slot;
* `Slots.get?_free_of_ne`, `Slots.get?_replace_of_ne` — what it does to the others.
-/

set_option relaxedAutoImplicit false
set_option autoImplicit false

namespace Vantage

/-- A store of values under reusable slot numbers. -/
structure Slots (α : Type) where
  /-- The cell of each slot number issued so far; `none` while the slot is free. -/
  cells : Array (Option α)
  /-- The free slots, the one to be reused first in front. -/
  vacant : List Nat
  /-- The number of occupied slots. -/
  size : Nat

namespace Slots

variable {α : Type}

/-! ### Operations -/

/-- The store in which no slot has been issued. -/
def empty : Slots α := ⟨#[], [], 0⟩

/-- The value in a slot, `none` for a free slot and for a number never issued. -/
def get? (s : Slots α) (slot : Nat) : Option α := s.cells[slot]?.join

/-- A slot is occupied when it holds a value. -/
def Occupied (s : Slots α) (slot : Nat) : Prop := (s.get? slot).isSome

instance (s : Slots α) (slot : Nat) : Decidable (s.Occupied slot) :=
  inferInstanceAs (Decidable ((s.get? slot).isSome = true))

/-- No slot is occupied. -/
def isEmpty (s : Slots α) : Bool := s.size == 0

/-- Puts a value into the most recently freed slot, or into a new one if none is free. -/
def alloc (s : Slots α) (a : α) : Nat × Slots α :=
  match s.vacant with
  | slot :: rest => (slot, ⟨s.cells.setIfInBounds slot (some a), rest, s.size + 1⟩)
  | [] => (s.cells.size, ⟨s.cells.push (some a), [], s.size + 1⟩)

/-- Empties a slot and returns what it held. -/
def free (s : Slots α) (slot : Nat) : Option α × Slots α :=
  match s.get? slot with
  | some a => (some a, ⟨s.cells.setIfInBounds slot none, slot :: s.vacant, s.size - 1⟩)
  | none => (none, s)

/-- Puts a value into an occupied slot and returns what it held before. -/
def replace (s : Slots α) (slot : Nat) (a : α) : Option α × Slots α :=
  match s.get? slot with
  | some old => (some old, { s with cells := s.cells.setIfInBounds slot (some a) })
  | none => (none, s)

/-- Puts values into several occupied slots, in order. -/
def replaceAll (s : Slots α) (values : List (Nat × α)) : Slots α :=
  values.foldl (fun s x => (s.replace x.1 x.2).2) s

/-- Empties several slots, in order. -/
def freeAll (s : Slots α) (slots : List Nat) : Slots α :=
  slots.foldl (fun s slot => (s.free slot).2) s

/-- Puts the same value into `n` slots, one after another; returns the slots in that order. -/
def allocMany (s : Slots α) (a : α) : Nat → List Nat × Slots α
  | 0 => ([], s)
  | n + 1 =>
    let (slot, s) := s.alloc a
    let (slots, s) := s.allocMany a n
    (slot :: slots, s)

/-- Takes `n` slots and gives them back in the order in which they were taken. No slot changes
its contents; only the order in which free slots are handed out may. -/
def lend (s : Slots α) (a : α) (n : Nat) : Slots α :=
  let (slots, s) := s.allocMany a n
  s.freeAll slots

/-! ### What an operation does to a slot -/

@[simp] theorem get?_empty (slot : Nat) : (empty : Slots α).get? slot = none := by
  simp [empty, get?]

/-- A newly occupied slot holds its value when the free slots are slots of the store. -/
theorem get?_alloc_self (s : Slots α) (a : α) (h : ∀ slot ∈ s.vacant, slot < s.cells.size) :
    (s.alloc a).2.get? (s.alloc a).1 = some a := by
  unfold alloc
  split
  next slot rest hv =>
    have hlt : slot < s.cells.size := h slot (by simp [hv])
    simp [get?, hlt]
  next => simp [get?]

theorem free_eq_none {s : Slots α} {slot : Nat} (h : s.get? slot = none) :
    s.free slot = (none, s) := by
  simp [free, h]

theorem get?_free_self (s : Slots α) (slot : Nat) : (s.free slot).2.get? slot = none := by
  unfold free
  split
  next a h =>
    rw [get?, Array.getElem?_setIfInBounds_self]
    split <;> rfl
  next h => exact h

theorem get?_free_of_ne (s : Slots α) {slot other : Nat} (h : other ≠ slot) :
    (s.free slot).2.get? other = s.get? other := by
  unfold free
  split
  next a ha => simp [get?, Ne.symm h]
  next => rfl

theorem replace_eq_none {s : Slots α} {slot : Nat} (a : α) (h : s.get? slot = none) :
    s.replace slot a = (none, s) := by
  simp [replace, h]

theorem get?_replace_self {s : Slots α} {slot : Nat} {old : α} (a : α)
    (h : s.get? slot = some old) : (s.replace slot a).2.get? slot = some a := by
  have hlt : slot < s.cells.size := by
    simp only [get?, Option.join_eq_some_iff] at h
    exact (Array.getElem?_eq_some_iff.1 h).1
  rw [replace, h]
  simp [get?, hlt]

theorem get?_replace_of_ne (s : Slots α) {slot other : Nat} (a : α) (h : other ≠ slot) :
    (s.replace slot a).2.get? other = s.get? other := by
  unfold replace
  split
  next => simp [get?, Ne.symm h]
  next => rfl

end Slots

end Vantage
