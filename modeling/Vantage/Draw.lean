/-
**Drawing from the back of a list.**

Vantage points are drawn from the back of the points that a node is handed, the last one first.

Main definitions:

* `Vantage.drawBack` — what is left, and what was drawn.

Main results:

* `perm_drawBack` — nothing is lost and nothing added;
* `length_drawBack_snd` — as many are drawn as asked for, or all.
-/

set_option relaxedAutoImplicit false
set_option autoImplicit false

namespace Vantage

variable {α : Type}

/-- The list without its last `n` members, and those members, the last one first. -/
def drawBack (n : Nat) (l : List α) : List α × List α :=
  (l.take (l.length - n), (l.drop (l.length - n)).reverse)

theorem length_drawBack_fst (n : Nat) (l : List α) : (drawBack n l).1.length = l.length - n := by
  simp [drawBack]

theorem length_drawBack_snd (n : Nat) (l : List α) :
    (drawBack n l).2.length = min n l.length := by
  simp [drawBack]
  omega

/-- What is left, followed by what was drawn in its old order, is the list. -/
theorem drawBack_fst_append_reverse_snd (n : Nat) (l : List α) :
    (drawBack n l).1 ++ (drawBack n l).2.reverse = l := by
  simp [drawBack]

theorem perm_drawBack (n : Nat) (l : List α) :
    ((drawBack n l).1 ++ (drawBack n l).2).Perm l :=
  ((List.reverse_perm _).symm.append_left _).trans
    (.of_eq (drawBack_fst_append_reverse_snd n l))

end Vantage
