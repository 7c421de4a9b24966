/-
**What a search finds.**

Main definitions:

* `Vantage.Hit` — a point with its distance to the target;
* `Vantage.Visit` — what one node contributes to a search: its hits and what they cost;
* `Vantage.insertHit`, `Vantage.nearestFirst` — hits in order of distance; of equally distant hits
  the one found first comes first.

Main results:

* `nearestFirst_perm` — putting hits in order keeps them all.
-/

import Vantage.Point

set_option relaxedAutoImplicit false
set_option autoImplicit false

namespace Vantage

/-- A point that a search found, with its distance to the target. -/
structure Hit where
  held : Held
  distance : Float

/-- What the visit to one node yields: its hits in storage order, and the number of distances that
were measured to find them. -/
structure Visit where
  hits : List Hit
  measured : Nat

/-- Puts a hit behind all hits that are at most as distant. -/
def insertHit (hits : List Hit) (hit : Hit) : List Hit :=
  match hits with
  | [] => [hit]
  | h :: rest => if h.distance ≤ hit.distance then h :: insertHit rest hit else hit :: h :: rest

/-- Hits in order of distance, equally distant ones in the order in which they were found. -/
def nearestFirst (found : List Hit) : List Hit := found.foldl insertHit []

theorem insertHit_perm (hits : List Hit) (hit : Hit) : (insertHit hits hit).Perm (hit :: hits) := by
  induction hits with
  | nil => exact .refl _
  | cons h rest ih =>
    unfold insertHit
    split
    · exact (ih.cons h).trans (.swap hit h rest)
    · exact .refl _

theorem nearestFirst_perm (found : List Hit) : (nearestFirst found).Perm found := by
  have key : ∀ (l acc : List Hit), (l.foldl insertHit acc).Perm (l ++ acc) := by
    intro l
    induction l with
    | nil => intro acc; exact .refl _
    | cons x l ih =>
      intro acc
      refine (ih (insertHit acc x)).trans ?_
      exact ((insertHit_perm acc x).append_left l).trans List.perm_middle
  exact (key found []).trans (.of_eq (List.append_nil found))

end Vantage
