/-
**Points: an id, a fingerprint and whether they are still live.**

A point that is deleted or replaced is not taken out of the node that holds it; it is marked as
no longer live and stays until that node is rebuilt. Points are owned by a store of slots, and
nodes hold slot numbers.

Main definitions:

* `Vantage.Entry`, `Vantage.Point` — what is kept, and what a slot holds;
* `Vantage.Held` — a point together with its slot;
* `Slots.point`, `Slots.hold`, `Slots.holdAll` — looking up slots that should be occupied;
* `Slots.setLive` — marking a point.
-/

import Vantage.Breach
import Vantage.Slots

set_option relaxedAutoImplicit false
set_option autoImplicit false

namespace Vantage

/-- An id with its fingerprint. -/
abbrev Entry := Int64 × UInt64

/-- A fingerprint with its id, and whether it still counts. -/
structure Point where
  id : Int64
  value : UInt64
  live : Bool := true
deriving DecidableEq, Repr

/-- The id and the fingerprint of a point. -/
def Point.entry (p : Point) : Entry := (p.id, p.value)

/-- A point together with the slot that holds it. -/
structure Held where
  slot : Nat
  point : Point
deriving DecidableEq, Repr

namespace Held

/-- The fingerprint of the point. -/
def value (h : Held) : UInt64 := h.point.value

/-- Whether the point still counts. -/
def live (h : Held) : Bool := h.point.live

/-- The id and the fingerprint of the point. -/
def entry (h : Held) : Entry := h.point.entry

end Held

namespace Slots

variable (points : Slots Point)

/-! ### Looking up points -/

/-- The point in a slot that should be occupied. -/
def point (slot : Nat) : Except Breach Point :=
  match points.get? slot with
  | some p => .ok p
  | none => .error (.danglingPoint slot)

/-- The point in a slot that should be occupied, with the slot. -/
def hold (slot : Nat) : Except Breach Held := do
  return ⟨slot, ← points.point slot⟩

/-- The points in several slots, in order. -/
def holdAll : List Nat → Except Breach (List Held)
  | [] => .ok []
  | slot :: rest => do
    let h ← points.hold slot
    return h :: (← holdAll rest)

/-- Marks the point in a slot as live or as no longer live. -/
def setLive (slot : Nat) (live : Bool) : Except Breach (Slots Point) := do
  let p ← points.point slot
  return (points.replace slot { p with live }).2

theorem point_eq_ok_iff {slot : Nat} {p : Point} :
    points.point slot = .ok p ↔ points.get? slot = some p := by
  unfold point
  split <;> simp_all

theorem hold_eq_ok_iff {slot : Nat} {h : Held} :
    points.hold slot = .ok h ↔ h.slot = slot ∧ points.get? slot = some h.point := by
  rw [← point_eq_ok_iff]
  cases hp : points.point slot with
  | error b => simp [hold, hp, bind, Except.bind]
  | ok p =>
    obtain ⟨s, q⟩ := h
    simp [hold, hp, bind, Except.bind, pure, Except.pure]
    exact fun _ => eq_comm

/-- Looking up several slots succeeds exactly when each of them can be looked up. -/
theorem holdAll_cons_eq_ok_iff {slot : Nat} {rest : List Nat} {hs : List Held} :
    points.holdAll (slot :: rest) = .ok hs ↔
      ∃ h hs', points.hold slot = .ok h ∧ points.holdAll rest = .ok hs' ∧ hs = h :: hs' := by
  cases hh : points.hold slot with
  | error b => simp [holdAll, hh, bind, Except.bind]
  | ok h =>
    cases hr : points.holdAll rest with
    | error b => simp [holdAll, hh, hr, bind, Except.bind]
    | ok hs' => simp [holdAll, hh, hr, bind, Except.bind, pure, Except.pure, eq_comm]

end Slots

end Vantage
