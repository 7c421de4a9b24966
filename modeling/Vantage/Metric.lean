/-
**Distances between fingerprints.**

A metric is any function from two 64-bit fingerprints to a binary64 number. The tree asks nothing
more of it than that; the laws of a distance are what its searches need in order to miss nothing.

Main definitions:

* `Vantage.Metric` — a distance function;
* `Vantage.popCount` — the number of ones among the low bits of a word;
* `Vantage.hamming` — the number of bit positions in which two fingerprints differ.
-/

set_option relaxedAutoImplicit false
set_option autoImplicit false

namespace Vantage

/-- A distance function on fingerprints. The order of the arguments may matter. -/
abbrev Metric := UInt64 → UInt64 → Float

/-- The number of ones among the lowest `n` bits of a word. -/
def popCount : Nat → UInt64 → Nat
  | 0, _ => 0
  | n + 1, x => (x &&& 1).toNat + popCount n (x >>> 1)

@[simp] theorem popCount_zero (x : UInt64) : popCount 0 x = 0 := rfl

theorem popCount_succ (n : Nat) (x : UInt64) :
    popCount (n + 1) x = (x &&& 1).toNat + popCount n (x >>> 1) := rfl

/-- There are at most as many ones as bits. -/
theorem popCount_le (n : Nat) (x : UInt64) : popCount n x ≤ n := by
  induction n generalizing x with
  | zero => simp
  | succ n ih =>
    have h₁ : (x &&& 1).toNat ≤ 1 := by
      rw [UInt64.toNat_and]
      exact Nat.and_le_right
    have h₂ := ih (x >>> 1)
    rw [popCount_succ]
    omega

/-- The Hamming distance: the number of bit positions in which the two fingerprints differ. -/
def hamming : Metric := fun a b => Float.ofNat (popCount 64 (a ^^^ b))

end Vantage
