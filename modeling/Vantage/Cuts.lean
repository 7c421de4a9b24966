/-
**Cutting a bucket of distances into equal parts.**

The points of a bucket are divided by their distances to a vantage point. The places of division,
the cuts, are quantiles: the distances are put in order, cut `i` of `n` points in `k` parts stands
at position `i * n / k`, and a position between two distances takes their mean. A distance belongs
to the first part whose cut it does not exceed, and to the last part if it exceeds every cut.

Main definitions:

* `Vantage.bitRank`, `Vantage.ranked` — the total order of binary64 numbers by sign and magnitude
  of their bit patterns, in which `-0.0` comes before `0.0` and a NaN after everything, and
  distances in that order;
* `Vantage.cuts` — the cuts of a list of distances;
* `Vantage.part?` — the part to which a distance belongs, if it belongs to one;
* `Vantage.admits` — whether a part can hold a point within a radius of a target whose distance to
  the vantage point is given.

Main results:

* `ranked_perm` — putting distances in order keeps them all;
* `part?_lt` — a part is one of the parts between and beside the cuts.
-/

set_option relaxedAutoImplicit false
set_option autoImplicit false

namespace Vantage

/-! ### Distances in order -/

/-- The place of a number in the total order, which goes by the bit pattern read as sign and
magnitude: the patterns with the sign come first, in descending order, and the others follow. -/
def bitRank (x : Float) : UInt64 :=
  let bits := x.toBits
  if bits < 0x8000000000000000 then bits + 0x8000000000000000 else ~~~bits

/-- Puts a number in front of the first one of the list that does not rank below it. -/
def insertRanked (x : Float) : List Float → List Float
  | [] => [x]
  | y :: ys => if bitRank x ≤ bitRank y then x :: y :: ys else y :: insertRanked x ys

/-- The numbers of a list in ascending rank. -/
def ranked (xs : List Float) : List Float := xs.foldr insertRanked []

theorem insertRanked_perm (x : Float) (ys : List Float) : (insertRanked x ys).Perm (x :: ys) := by
  induction ys with
  | nil => exact .refl _
  | cons y ys ih =>
    unfold insertRanked
    split
    · exact .refl _
    · exact (ih.cons y).trans (.swap x y ys)

theorem ranked_perm (xs : List Float) : (ranked xs).Perm xs := by
  induction xs with
  | nil => exact .refl _
  | cons x xs ih => exact (insertRanked_perm x _).trans (ih.cons x)

/-! ### Cuts -/

/-- The number at a place of a list in order, or at its last place if there are fewer. -/
def atMostLast (sorted : Array Float) (place : Nat) : Float :=
  sorted[min place (sorted.size - 1)]?.getD 0

/-- Cut number `i` of distances in order that are to be divided into `parts` parts. The position
is computed in binary64; its neighbours on either side are the places below and above it. -/
def cutAt (sorted : Array Float) (parts i : Nat) : Float :=
  let position := Float.ofNat i * (Float.ofNat sorted.size / Float.ofNat parts)
  let below := position.toUInt64.toNat
  let above := if Float.ofNat below < position then below + 1 else below
  (atMostLast sorted below + atMostLast sorted above) / 2

/-- The cuts that divide the given distances into `parts` parts; there are `parts - 1` of them. -/
def cuts (parts : Nat) (gaps : List Float) : List Float :=
  let sorted := (ranked gaps).toArray
  (List.range (parts - 1)).map fun i => cutAt sorted parts (i + 1)

@[simp] theorem length_cuts (parts : Nat) (gaps : List Float) :
    (cuts parts gaps).length = parts - 1 := by simp [cuts]

/-! ### Parts -/

/-- The part to which a distance belongs: the first whose cut it does not exceed, or the last if
it exceeds the last cut. A distance that compares with no cut belongs to no part. -/
def part? (cuts : List Float) (gap : Float) : Option Nat :=
  match cuts.findIdx? (gap ≤ ·) with
  | some j => some j
  | none => cuts.getLast?.bind fun last => if last < gap then some cuts.length else none

/-- Whether part `j` can hold a point within `radius` of a target at distance `gap` from the
vantage point: below a cut the target must not lie more than the radius above it, and in the last
part not as much as the radius below the last cut. -/
def admits (cuts : List Float) (radius gap : Float) (j : Nat) : Bool :=
  match cuts[j]? with
  | some cut => gap ≤ cut + radius
  | none => cuts.getLast?.any fun last => last - radius < gap

theorem part?_lt {cuts : List Float} {gap : Float} {j : Nat} (h : part? cuts gap = some j) :
    j < cuts.length + 1 := by
  unfold part? at h
  split at h
  next i hi =>
    have := (List.findIdx?_eq_some_iff_getElem.1 hi).1
    simp_all
    omega
  next =>
    simp only [Option.bind_eq_some_iff] at h
    obtain ⟨last, -, hlast⟩ := h
    split at hlast <;> simp_all

end Vantage
