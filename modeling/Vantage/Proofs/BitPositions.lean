/-
**The positions of the bits of a word.**

Ones are counted by shifting a word to the right and looking at its lowest bit. Counted at their
positions they are the same number, and those of an exclusive or stand where the two words differ:
so their number is the distance of the two words as sequences of bits.

Main definitions:

* `Vantage.bitAt` — the bit at a position.

Main results:

* `Vantage.bitAt_injective` — a word is known by its bits;
* `Vantage.popCount_eq_card` — the ones are counted at their positions;
* `Vantage.popCount_xor` — **the ones of an exclusive or count the positions in which the words
  differ**.
-/

import Mathlib.Data.Fintype.Fin
import Mathlib.InformationTheory.Hamming
import Vantage.Metric

set_option relaxedAutoImplicit false
set_option autoImplicit false

namespace Vantage

/-- The bit of a word at a position; the least significant bit stands at position zero. -/
def bitAt (x : UInt64) (i : Fin 64) : Bool := x.toNat.testBit i

/-- A word is known by its bits. -/
theorem bitAt_injective : Function.Injective bitAt := by
  intro x y h
  refine UInt64.toNat_inj.1 (Nat.eq_of_testBit_eq fun i => ?_)
  rcases lt_or_ge i 64 with hi | hi
  · exact congrFun h ⟨i, hi⟩
  · -- beyond its 64 positions a word has no ones
    have hpow : 2 ^ 64 ≤ 2 ^ i := Nat.pow_le_pow_right two_pos hi
    rw [Nat.testBit_lt_two_pow (x.toNat_lt.trans_le hpow),
      Nat.testBit_lt_two_pow (y.toNat_lt.trans_le hpow)]

theorem lowBit_eq (x : UInt64) : (x &&& 1).toNat = x.toNat % 2 := by
  rw [UInt64.toNat_and]
  exact Nat.and_one_is_mod _

/-- The bits of a word that is shifted to the right. -/
theorem testBit_shiftRight_one (x : UInt64) (i : ℕ) :
    (x >>> 1).toNat.testBit i = x.toNat.testBit (i + 1) := by
  simp [Nat.testBit_shiftRight, Nat.add_comm]

/-- The ones among the lowest bits are counted at their positions. -/
theorem popCount_eq_card (n : ℕ) (x : UInt64) :
    popCount n x = (Finset.univ.filter fun i : Fin n => x.toNat.testBit i).card := by
  induction n generalizing x with
  | zero => rfl
  | succ n ih =>
      -- position zero holds the lowest bit, and the other positions go down by one
      rw [popCount_succ, lowBit_eq, ih, Fin.card_filter_univ_succ]
      simp only [testBit_shiftRight_one, Fin.val_zero, Fin.val_succ, Nat.testBit_zero,
        decide_eq_true_eq]
      split_ifs <;> omega

/-- **The ones of an exclusive or count the positions in which the words differ.** -/
theorem popCount_xor (x y : UInt64) : popCount 64 (x ^^^ y) = hammingDist (bitAt x) (bitAt y) := by
  have hbit : ∀ i : Fin 64, (x ^^^ y).toNat.testBit i = true ↔ bitAt x i ≠ bitAt y i := fun i => by
    rw [UInt64.toNat_xor, Nat.testBit_xor, bne_iff_ne]
    rfl
  rw [popCount_eq_card, hammingDist]
  simp only [hbit]

end Vantage
