/-
**The cuts of a bucket.**

Distances are put in order by rank, and a cut is the mean of the distances at two places that lie
next to each other, or of one distance and itself. The places go up with the number of the cut,
since its position does, so the mean of the next two places is not smaller. A cut that is not a
number, the mean of opposite infinities, compares with nothing; any two cuts that are numbers are in
order.

Main definitions:

* `InOrder` — two distances are in order if they are numbers;
* `positionOf` — the position of a cut;
* `placeBelow`, `placeAbove` — the places on either side of a position.

Main results:

* `cuts_isNumber` — cuts of numbers are numbers unless both infinities occur;
* `cuts_inOrder` — **the cuts of a bucket are in order**;
* `part?_isSome`, `part?_bounds` — when a distance belongs to a part, and the cuts between which it
  then lies.
-/

import Vantage.Cuts
import Vantage.Proofs.Binary64.Means
import Vantage.Proofs.Binary64.Multiples
import Vantage.Proofs.Binary64.Patterns

set_option relaxedAutoImplicit false
set_option autoImplicit false

namespace Vantage

open Binary64 (HasSign value value_zero le_self isNaN_add_of_ne isNaN_half isNaN_of_le isNaN_of_lt
  isNaN_ofNat isNaN_zero le_or_lt_of_isNaN lt_le_trans le_of_bitRank_le toUInt64_le_toUInt64
  hasSign_div_ofNat hasSign_mul mul_le_mul_of_le mean_le_mean)

variable {parts : Nat} {gaps : List Float} {i j : Nat}

/-! ### Distances in order -/

/-- Two distances are in order if they are numbers. -/
def InOrder (x y : Float) : Prop := x.isNaN = false → y.isNaN = false → x ≤ y

theorem InOrder.refl (x : Float) : InOrder x x := fun hx _ => le_self hx

theorem insertRanked_pairwise {x : Float} {ys : List Float}
    (h : ys.Pairwise fun a b => bitRank a ≤ bitRank b) :
    (insertRanked x ys).Pairwise fun a b => bitRank a ≤ bitRank b := by
  induction ys with
  | nil => exact List.pairwise_singleton _ _
  | cons y ys ih =>
      obtain ⟨hy, hys⟩ := List.pairwise_cons.1 h
      unfold insertRanked
      split
      next hle =>
        refine List.pairwise_cons.2 ⟨List.forall_mem_cons.2 ⟨hle, fun z hz => ?_⟩, h⟩
        exact UInt64.le_trans hle (hy z hz)
      next hle =>
        refine List.pairwise_cons.2 ⟨fun z hz => ?_, ih hys⟩
        rcases List.mem_cons.1 ((insertRanked_perm x ys).mem_iff.1 hz) with rfl | hz
        · exact (UInt64.le_total _ _).resolve_left hle
        · exact hy z hz

theorem ranked_pairwise (gaps : List Float) :
    (ranked gaps).Pairwise fun a b => bitRank a ≤ bitRank b := by
  induction gaps with
  | nil => exact .nil
  | cons gap gaps ih => exact insertRanked_pairwise ih

/-- Numbers in order of rank are in order. -/
theorem ranked_pairwise_le (hgaps : ∀ gap ∈ gaps, gap.isNaN = false) :
    (ranked gaps).Pairwise (· ≤ ·) := by
  have hnum : ∀ gap ∈ ranked gaps, gap.isNaN = false := fun gap hgap =>
    hgaps gap ((ranked_perm gaps).mem_iff.1 hgap)
  exact (ranked_pairwise gaps).imp_of_mem fun ha hb => le_of_bitRank_le (hnum _ ha) (hnum _ hb)

/-! ### Cuts that are numbers -/

/-- A place at most the last holds one of the distances, or zero if there are none. -/
theorem atMostLast_mem (sorted : Array Float) (place : Nat) :
    atMostLast sorted place ∈ sorted.toList ∨ atMostLast sorted place = 0 := by
  unfold atMostLast
  cases h : sorted[min place (sorted.size - 1)]? with
  | none => exact .inr rfl
  | some x =>
      obtain ⟨hlt, rfl⟩ := Array.getElem?_eq_some_iff.1 h
      exact .inl (Array.mem_toList_iff.2 (Array.getElem_mem hlt))

/-- What holds of zero and of every distance holds at every place. -/
theorem forall_atMostLast {P : Float → Prop} (hzero : P 0)
    (h : ∀ gap ∈ gaps, P gap) (place : Nat) : P (atMostLast (ranked gaps).toArray place) := by
  rcases atMostLast_mem (ranked gaps).toArray place with hmem | heq
  · exact h _ ((ranked_perm gaps).mem_iff.1 hmem)
  · rw [heq]
    exact hzero

/-- Cuts of numbers are numbers unless both infinities occur. -/
theorem cuts_isNumber (h : ∀ gap ∈ gaps, gap.isNaN = false)
    (hside : (∀ gap ∈ gaps, value gap ≠ ⊥) ∨ ∀ gap ∈ gaps, value gap ≠ ⊤) :
    ∀ cut ∈ cuts parts gaps, cut.isNaN = false := by
  have hzero : value 0 ≠ ⊥ ∧ value 0 ≠ ⊤ := by simp [value_zero]
  intro cut hcut
  obtain ⟨i, -, rfl⟩ := List.mem_map.1 hcut
  refine isNaN_half (isNaN_add_of_ne (forall_atMostLast isNaN_zero h _)
    (forall_atMostLast isNaN_zero h _) ?_)
  -- the two places whose mean is taken lie on the same side
  rcases hside with hside | hside
  · exact .inl ⟨forall_atMostLast hzero.1 hside _, forall_atMostLast hzero.1 hside _⟩
  · exact .inr ⟨forall_atMostLast hzero.2 hside _, forall_atMostLast hzero.2 hside _⟩

/-! ### The places of a cut -/

/-- The position of cut `i` of `n` distances in order. -/
def positionOf (n parts i : Nat) : Float := Float.ofNat i * (Float.ofNat n / Float.ofNat parts)

/-- The place below a position. -/
def placeBelow (position : Float) : Nat := position.toUInt64.toNat

/-- The place above a position, the same one if the position is at a place. -/
def placeAbove (position : Float) : Nat :=
  if Float.ofNat (placeBelow position) < position then placeBelow position + 1
  else placeBelow position

theorem placeAbove_bounds (position : Float) :
    placeBelow position ≤ placeAbove position ∧ placeAbove position ≤ placeBelow position + 1 := by
  unfold placeAbove
  split <;> omega

/-- A cut is the mean of the distances at its places. -/
theorem cutAt_ranked (gaps : List Float) (parts i : Nat) : cutAt (ranked gaps).toArray parts i =
    (atMostLast (ranked gaps).toArray (placeBelow (positionOf gaps.length parts i)) +
      atMostLast (ranked gaps).toArray (placeAbove (positionOf gaps.length parts i))) / 2 := by
  rw [← (ranked_perm gaps).length_eq, ← List.size_toArray]
  rfl

/-- A position that is not smaller has the same place below it and one above it that is not smaller,
or both of its places lie further on. -/
theorem places_mono {x y : Float} (hx : HasSign .positive (Binary64.parts x))
    (hy : HasSign .positive (Binary64.parts y)) (h : x ≤ y) :
    (placeBelow x = placeBelow y ∧ placeAbove x ≤ placeAbove y) ∨
      placeAbove x ≤ placeBelow y := by
  have hle : placeBelow x ≤ placeBelow y := toUInt64_le_toUInt64 hx hy h
  rcases hle.eq_or_lt with heq | hlt
  · refine .inl ⟨heq, ?_⟩
    unfold placeAbove
    rw [heq]
    split
    next hlt => rw [if_pos (lt_le_trans hlt h)]
    next => split <;> omega
  · exact .inr ((placeAbove_bounds x).2.trans hlt)

/-! ### Cuts in order -/

/-- The distance at a place that is further on is not smaller. -/
theorem atMostLast_mono (hgaps : ∀ gap ∈ gaps, gap.isNaN = false) (hij : i ≤ j) :
    atMostLast (ranked gaps).toArray i ≤ atMostLast (ranked gaps).toArray j := by
  have hsize : (ranked gaps).toArray.size = (ranked gaps).length := List.size_toArray
  rcases (min_le_min_right ((ranked gaps).length - 1) hij).eq_or_lt with heq | hlt
  · have hsame : atMostLast (ranked gaps).toArray j = atMostLast (ranked gaps).toArray i := by
      rw [atMostLast, atMostLast, hsize, heq]
    have hnum := forall_atMostLast isNaN_zero hgaps i
    rw [hsame]
    exact InOrder.refl _ hnum hnum
  · have hj : min j ((ranked gaps).length - 1) < (ranked gaps).length := by omega
    rw [atMostLast, atMostLast, hsize, List.getElem?_toArray, List.getElem?_toArray,
      List.getElem?_eq_getElem hj, List.getElem?_eq_getElem (hlt.trans hj)]
    exact List.pairwise_iff_getElem.1 (ranked_pairwise_le hgaps) _ _ _ _ hlt

/-- **Two cuts of a bucket are in order.** -/
theorem cutAt_inOrder (hparts : 0 < parts) (hparts' : parts < 2 ^ 53)
    (hgaps : ∀ gap ∈ gaps, gap.isNaN = false) (hi : 0 < i) (hij : i ≤ j) (hj : j < 2 ^ 53) :
    InOrder (cutAt (ranked gaps).toArray parts i) (cutAt (ranked gaps).toArray parts j) := by
  have hshare := hasSign_div_ofNat gaps.length hparts hparts'
  have hplaces := places_mono (x := positionOf gaps.length parts i)
    (y := positionOf gaps.length parts j) (hasSign_mul hshare hi (by omega))
    (hasSign_mul hshare (by omega) hj) (mul_le_mul_of_le hshare hi hij hj)
  rw [cutAt_ranked, cutAt_ranked]
  generalize positionOf gaps.length parts i = x at *
  generalize positionOf gaps.length parts j = y at *
  have hx := placeAbove_bounds x
  have hy := placeAbove_bounds y
  intro h₁ h₂
  rcases hplaces with ⟨hbelow, habove⟩ | hfurther
  · rcases habove.eq_or_lt with heq | hlt
    · rw [hbelow, heq] at h₁ ⊢
      exact InOrder.refl _ h₁ h₂
    · -- the first position is at a place, and the second one comes after it
      exact mean_le_mean (atMostLast_mono hgaps hx.1) (atMostLast_mono hgaps (by omega))
        (atMostLast_mono hgaps hy.1) h₁ h₂
  · exact mean_le_mean (atMostLast_mono hgaps hx.1) (atMostLast_mono hgaps hfurther)
      (atMostLast_mono hgaps hy.1) h₁ h₂

/-- **The cuts of a bucket are in order**, as far as they are numbers. -/
theorem cuts_inOrder (hparts : parts < 2 ^ 53) (hgaps : ∀ gap ∈ gaps, gap.isNaN = false) :
    (cuts parts gaps).Pairwise InOrder := by
  unfold cuts
  refine List.pairwise_map.2 (List.pairwise_lt_range.imp_of_mem fun {i j} hi hj hlt => ?_)
  rw [List.mem_range] at hi hj
  exact cutAt_inOrder (by omega) hparts hgaps (by omega) (by omega) (by omega)

/-! ### Parts -/

/-- A number belongs to some part when the cuts are numbers. -/
theorem part?_isSome {cuts : List Float} {gap : Float} (hne : cuts ≠ [])
    (hcuts : ∀ cut ∈ cuts, cut.isNaN = false) (hgap : gap.isNaN = false) :
    (part? cuts gap).isSome := by
  unfold part?
  split
  next => rfl
  next hnone =>
    have hlast := List.getLast_mem hne
    have hnot : ¬ gap ≤ cuts.getLast hne := by
      simpa using List.findIdx?_eq_none_iff.1 hnone _ hlast
    rw [List.getLast?_eq_some_getLast hne, Option.bind_some,
      if_pos ((le_or_lt_of_isNaN hgap (hcuts _ hlast)).resolve_left hnot)]
    rfl

/-- What belongs to some part is a number. -/
theorem isNaN_of_part? {cuts : List Float} {gap : Float} {j : Nat} (h : part? cuts gap = some j) :
    gap.isNaN = false := by
  unfold part? at h
  split at h
  next i hi =>
    obtain ⟨_, hle, -⟩ := List.findIdx?_eq_some_iff_getElem.1 hi
    exact (isNaN_of_le (of_decide_eq_true hle)).1
  next =>
    obtain ⟨last, -, hlast⟩ := Option.bind_eq_some_iff.1 h
    split at hlast
    next hlt => exact (isNaN_of_lt hlt).2
    next => cases hlast

/-- The cut of a part is not exceeded. Every cut before it is, unless it is not a number, and the
last cut is exceeded in the part behind it. -/
theorem part?_bounds {cuts : List Float} {gap : Float} {part : Nat}
    (h : part? cuts gap = some part) :
    (∀ cut, cuts[part]? = some cut → gap ≤ cut) ∧
    (∀ i < part, ∀ cut, cuts[i]? = some cut → cut.isNaN = false → cut < gap) ∧
    (part = cuts.length → ∃ last, cuts.getLast? = some last ∧ last < gap) := by
  have hgap := isNaN_of_part? h
  unfold part? at h
  split at h
  next i hi =>
    obtain rfl := Option.some.inj h
    obtain ⟨hlt, hle, hbefore⟩ := List.findIdx?_eq_some_iff_getElem.1 hi
    refine ⟨fun cut hcut => ?_, fun k hk cut hcut hnum => ?_, fun heq => by omega⟩
    · obtain ⟨_, rfl⟩ := List.getElem?_eq_some_iff.1 hcut
      exact of_decide_eq_true hle
    · obtain ⟨_, rfl⟩ := List.getElem?_eq_some_iff.1 hcut
      exact (le_or_lt_of_isNaN hgap hnum).resolve_left (by simpa using hbefore k hk)
  next hnone =>
    obtain ⟨last, hlast, hif⟩ := Option.bind_eq_some_iff.1 h
    split at hif
    next hlt =>
      obtain rfl := Option.some.inj hif
      refine ⟨fun cut hcut => ?_, fun k _ cut hcut hnum => ?_, fun _ => ⟨last, hlast, hlt⟩⟩
      · rw [List.getElem?_eq_none le_rfl] at hcut
        cases hcut
      · have hnot := List.findIdx?_eq_none_iff.1 hnone cut (List.mem_of_getElem? hcut)
        exact (le_or_lt_of_isNaN hgap hnum).resolve_left (by simpa using hnot)
    next => cases hif

end Vantage
