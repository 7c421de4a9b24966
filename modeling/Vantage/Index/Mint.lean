/-
**Ids for entries that come without one.**

A generated id is made up of three fields: 32 bits of the clock, 16 random bits and 16 bits of a
counter, from the most significant bit down. The counter alone keeps ids apart; the other fields
keep apart the ids of different runs.

Main definitions:

* `Vantage.Stamp`, `Vantage.Mint` — the readings that go into an id, and the counter;
* `Mint.next` — the next id;
* `Mint.issue` — an id for each of several readings.

Main results:

* `Mint.counter_issue` — the counter has advanced by the number of ids, modulo `2 ^ 64`.
-/

set_option relaxedAutoImplicit false
set_option autoImplicit false

namespace Vantage

/-- The readings that go into a generated id. -/
structure Stamp where
  /-- The clock, in milliseconds. -/
  millis : UInt64
  /-- A random word, of which the upper half is used. -/
  random : UInt32
deriving DecidableEq, Repr

namespace Stamp

/-- The id made of the readings and a count. -/
def idAt (stamp : Stamp) (count : UInt64) : Int64 :=
  ((stamp.millis <<< 32) ||| (stamp.random.toUInt64 &&& 0xffff0000) ||| (count &&& 0xffff)).toInt64

end Stamp

/-- A source of ids. -/
structure Mint where
  /-- The count of the last id that was issued. -/
  counter : UInt64 := 0
deriving DecidableEq, Repr

namespace Mint

/-- The next id; the counter advances, and starts over after its last value. -/
def next (mint : Mint) (stamp : Stamp) : Int64 × Mint :=
  let count := mint.counter + 1
  (stamp.idAt count, ⟨count⟩)

/-- An id for each of the given readings. -/
def issue (mint : Mint) : List Stamp → List Int64 × Mint
  | [] => ([], mint)
  | stamp :: rest =>
    let (id, mint) := mint.next stamp
    let (ids, mint) := mint.issue rest
    (id :: ids, mint)

@[simp] theorem length_issue (mint : Mint) (stamps : List Stamp) :
    (mint.issue stamps).1.length = stamps.length := by
  induction stamps generalizing mint with
  | nil => rfl
  | cons stamp rest ih => simp [issue, ih]

/-- The counter has advanced by the number of ids. -/
theorem counter_issue (mint : Mint) (stamps : List Stamp) :
    (mint.issue stamps).2.counter = mint.counter + UInt64.ofNat stamps.length := by
  induction stamps generalizing mint with
  | nil => simp [issue]
  | cons stamp rest ih =>
    simp only [issue, next, ih, List.length_cons, UInt64.ofNat_add]
    rw [UInt64.add_assoc, UInt64.add_comm 1]
    rfl

end Mint

end Vantage
