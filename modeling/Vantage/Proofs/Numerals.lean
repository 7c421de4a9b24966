/-
**What numerals denote.**

A numeral is an optional sign, digits with an optional point among or around them, and optionally a
mark with a whole number that shifts the point. It denotes an exact number: an amount, which is the
number of its digits times a power of ten, and a sign, which a numeral of zero has as well.

Main definitions:

* `Decimal.Pointed`, `Decimal.Shift`, `Decimal.Amount`, `Decimal.Denotes` — the parts of a numeral,
  and the sign and the amount that it denotes;
* `Decimal.Numeral.amount` — the amount of a numeral that was read;
* `Decimal.Numeral.Sized` — how many digits a numeral has.

Main results:

* `Decimal.denotes_iff` — **reading finds what a numeral denotes**;
* `Decimal.Denotes.unique` — a numeral denotes one sign and one amount;
* `Decimal.Numeral.sized_ofText?` — the digits of a numeral that was read are counted.
-/

import Mathlib.Algebra.Order.Field.Power
import Mathlib.Data.Rat.Cast.Defs
import Vantage.Decimal.Numeral
import Vantage.Proofs.Digits

set_option relaxedAutoImplicit false
set_option autoImplicit false

namespace Vantage.Decimal

/-! ### The parts of a numeral -/

/-- Digits with an optional point, at least one on one side of it: the number that the digits
denote without the point, and how many follow it. -/
inductive Pointed : List Char → ℕ → ℕ → Prop where
  | whole {cs : List Char} {n : ℕ} (h : Spells 10 cs n) : Pointed cs n 0
  | point {whole fraction : List Char} {n : ℕ} (h : Spells 10 (whole ++ fraction) n) :
      Pointed (whole ++ '.' :: fraction) n fraction.length

/-- Nothing, or a mark with a whole number: by how many places the point is shifted. -/
inductive Shift : List Char → ℤ → Prop where
  | none : Shift [] 0
  | marked {mark : Char} {cs : List Char} {z : ℤ} (hmark : mark = 'e' ∨ mark = 'E')
      (h : Signed cs z) : Shift (mark :: cs) z

/-- A numeral without a sign, and the exact amount that it denotes. -/
inductive Amount : List Char → ℚ → Prop where
  | shifted {digits shift : List Char} {n places : ℕ} {z : ℤ} (hdigits : Pointed digits n places)
      (hshift : Shift shift z) : Amount (digits ++ shift) (n * 10 ^ (z - places))

/-- **A numeral**, whether it has a minus sign, and the exact amount that it denotes. -/
inductive Denotes : List Char → Bool → ℚ → Prop where
  | plain {cs : List Char} {a : ℚ} (h : Amount cs a) : Denotes cs false a
  | plus {cs : List Char} {a : ℚ} (h : Amount cs a) : Denotes ('+' :: cs) false a
  | minus {cs : List Char} {a : ℚ} (h : Amount cs a) : Denotes ('-' :: cs) true a

theorem Amount.nonneg {cs : List Char} {a : ℚ} (h : Amount cs a) : 0 ≤ a := by
  cases h
  positivity

theorem Denotes.nonneg {cs : List Char} {negative : Bool} {a : ℚ} (h : Denotes cs negative a) :
    0 ≤ a := by
  cases h with
  | plain h => exact h.nonneg
  | plus h => exact h.nonneg
  | minus h => exact h.nonneg

/-! ### Splitting -/

/-- Decimal digits are digits. -/
theorem isDigit_of_spells {cs : List Char} {n : ℕ} (h : Spells 10 cs n) :
    ∀ c ∈ cs, c.isDigit = true := by
  intro c hc
  obtain ⟨v, hv, -, hcv⟩ := h.forall_isDigit c hc
  interval_cases v <;> rcases hcv with rfl | rfl <;> decide

namespace Numeral

variable {cs digits rest : List Char}

/-- The digits in front end where another character stands. -/
theorem splitDigits_append (hdigits : ∀ c ∈ digits, c.isDigit = true)
    (hrest : ∀ c ∈ rest.head?, c.isDigit = false) :
    splitDigits (digits ++ rest) = (digits, rest) := by
  have hnone : rest.takeWhile Char.isDigit = [] ∧ rest.dropWhile Char.isDigit = rest := by
    cases rest with
    | nil => exact ⟨rfl, rfl⟩
    | cons c rest =>
        have hc : ¬ c.isDigit = true := by simp [hrest c rfl]
        exact ⟨List.takeWhile_cons_of_neg hc, List.dropWhile_cons_of_neg hc⟩
  rw [splitDigits, List.takeWhile_append_of_pos hdigits, List.dropWhile_append_of_pos hdigits,
    hnone.1, hnone.2, List.append_nil]

theorem append_splitDigits (cs : List Char) : (splitDigits cs).1 ++ (splitDigits cs).2 = cs :=
  List.takeWhile_append_dropWhile

/-- Reading a shift. -/
theorem exponentOf?_eq_some_iff {z : ℤ} : exponentOf? cs = some z ↔ Shift cs z := by
  unfold exponentOf?
  constructor
  · intro h
    split at h
    next =>
      cases h
      exact .none
    next =>
      split at h
      next hmark => exact .marked hmark (signedOf?_eq_some_iff.1 h)
      next => cases h
  · intro h
    cases h with
    | none => rfl
    | marked hmark h =>
        dsimp only
        rw [if_pos hmark]
        exact signedOf?_eq_some_iff.2 h

theorem append_splitFraction (cs : List Char) :
    cs = (splitFraction cs).2 ∧ (splitFraction cs).1 = [] ∨
      cs = '.' :: ((splitFraction cs).1 ++ (splitFraction cs).2) := by
  unfold splitFraction
  split
  next rest => exact .inr (by rw [append_splitDigits])
  next => exact .inl ⟨rfl, rfl⟩

end Numeral

open Numeral

section

variable {cs : List Char} {a : ℚ} {negative : Bool}

/-- A shift begins with neither a digit nor a point. -/
theorem Shift.head {z : ℤ} (h : Shift cs z) : ∀ c ∈ cs.head?, c.isDigit = false ∧ c ≠ '.' := by
  intro c hc
  cases h with
  | none => cases hc
  | marked hmark =>
      obtain rfl := Option.some.inj hc
      rcases hmark with rfl | rfl <;> decide

/-- **The parts of a numeral** are found by splitting off what stands in front. -/
theorem amount_iff : Amount cs a ↔ ∃ whole after fraction shift n z,
    splitDigits cs = (whole, after) ∧ splitFraction after = (fraction, shift) ∧ Shift shift z ∧
      Spells 10 (whole ++ fraction) n ∧ (n * 10 ^ (z - fraction.length) : ℚ) = a := by
  constructor
  · rintro ⟨hdigits, hshift⟩
    rename_i digits shift n places z
    have hhead := hshift.head
    cases hdigits with
    | whole hspells =>
        refine ⟨digits, shift, [], shift, n, z, splitDigits_append (isDigit_of_spells hspells)
          fun c hc => (hhead c hc).1, ?_, hshift, by rwa [List.append_nil], rfl⟩
        unfold splitFraction
        split
        next => exact absurd rfl (hhead '.' rfl).2
        next => rfl
    | @point whole fraction _ hspells =>
        have hall := List.forall_mem_append.1 (isDigit_of_spells hspells)
        refine ⟨whole, '.' :: (fraction ++ shift), fraction, shift, n, z, ?_, ?_, hshift, hspells,
          rfl⟩
        · rw [List.append_assoc]
          refine splitDigits_append hall.1 fun c hc => ?_
          obtain rfl := Option.some.inj hc
          rfl
        · exact splitDigits_append hall.2 fun c hc => (hhead c hc).1
  · rintro ⟨whole, after, fraction, shift, n, z, hsplit, hfraction, hshift, hspells, rfl⟩
    have hcs := append_splitDigits cs
    have hafter := append_splitFraction after
    rw [hsplit] at hcs
    rw [hfraction] at hafter
    dsimp only at hcs hafter
    rcases hafter with ⟨rfl, rfl⟩ | rfl
    · rw [List.append_nil] at hspells
      rw [← hcs]
      exact .shifted (.whole hspells) hshift
    · rw [← hcs, ← List.cons_append, ← List.append_assoc]
      exact .shifted (.point hspells) hshift

/-- A numeral without a sign does not begin with one. -/
theorem not_amount_sign {sign : Char} (hsign : sign = '+' ∨ sign = '-') :
    ¬ Amount (sign :: cs) a := by
  rw [amount_iff]
  rintro ⟨whole, after, fraction, shift, n, z, hsplit, hfraction, hshift, -⟩
  have hnone : splitDigits (sign :: cs) = ([], sign :: cs) := by
    rcases hsign with rfl | rfl <;> rfl
  obtain ⟨-, rfl⟩ := Prod.mk.inj (hnone.symm.trans hsplit)
  have hkeep : splitFraction (sign :: cs) = ([], sign :: cs) := by
    rcases hsign with rfl | rfl <;> rfl
  obtain ⟨-, rfl⟩ := Prod.mk.inj (hkeep.symm.trans hfraction)
  cases hshift with
  | marked hmark => rcases hsign with rfl | rfl <;> revert hmark <;> decide

/-- Splitting off the sign. -/
theorem denotes_iff_splitSign :
    Denotes cs negative a ↔ (splitSign cs).1 = negative ∧ Amount (splitSign cs).2 a := by
  unfold splitSign
  split
  next rest =>
    constructor
    · intro h
      cases h with
      | minus h => exact ⟨rfl, h⟩
      | plain h => exact absurd h (not_amount_sign (.inr rfl))
    · rintro ⟨rfl, h⟩
      exact .minus h
  next rest =>
    constructor
    · intro h
      cases h with
      | plus h => exact ⟨rfl, h⟩
      | plain h => exact absurd h (not_amount_sign (.inl rfl))
    · rintro ⟨rfl, h⟩
      exact .plus h
  next hminus hplus =>
    constructor
    · intro h
      cases h with
      | plain h => exact ⟨rfl, h⟩
      | plus h => exact absurd rfl (hplus _)
      | minus h => exact absurd rfl (hminus _)
    · rintro ⟨rfl, h⟩
      exact .plain h

end

/-! ### Reading numerals -/

namespace Numeral

/-- The amount of a numeral that was read. -/
def amount (x : Numeral) : ℚ := x.digits * 10 ^ x.exponent

/-- A numeral has the digits that its length says, and no fewer unless it is zero. -/
def Sized (x : Numeral) : Prop :=
  x.digits ≠ 0 → 0 < x.length ∧ 10 ^ (x.length - 1) ≤ x.digits ∧ x.digits < 10 ^ x.length

theorem amount_nonneg (x : Numeral) : 0 ≤ x.amount := by
  unfold amount
  positivity

variable {cs : List Char} {x : Numeral}

/-- Reading a numeral splits off its parts. -/
theorem ofText?_eq_some_iff : ofText? cs = some x ↔ ∃ whole after fraction shift n z,
    splitDigits (splitSign cs).2 = (whole, after) ∧ splitFraction after = (fraction, shift) ∧
      Shift shift z ∧ Spells 10 (whole ++ fraction) n ∧
      x = ⟨(splitSign cs).1, n, ((whole ++ fraction).dropWhile (· = '0')).length,
        z - fraction.length⟩ := by
  obtain ⟨negative, rest, hsign⟩ : ∃ negative rest, splitSign cs = (negative, rest) := ⟨_, _, rfl⟩
  obtain ⟨whole, after, hsplit⟩ : ∃ whole after, splitDigits rest = (whole, after) := ⟨_, _, rfl⟩
  obtain ⟨fraction, shift, hfraction⟩ : ∃ fraction shift, splitFraction after = (fraction, shift) :=
    ⟨_, _, rfl⟩
  have hread : ofText? cs = (exponentOf? shift).bind fun z =>
      (natOf? 10 (whole ++ fraction)).bind fun n =>
        some ⟨negative, n, ((whole ++ fraction).dropWhile (· = '0')).length,
          z - fraction.length⟩ := by
    unfold ofText?
    simp only [hsign, hsplit, hfraction]
    rfl
  rw [hsign]
  rw [hread, Option.bind_eq_some_iff]
  constructor
  · rintro ⟨z, hz, h⟩
    obtain ⟨n, hn, h⟩ := Option.bind_eq_some_iff.1 h
    exact ⟨whole, after, fraction, shift, n, z, hsplit, hfraction, exponentOf?_eq_some_iff.1 hz,
      natOf?_eq_some_iff.1 hn, (Option.some.inj h).symm⟩
  · rintro ⟨whole', after', fraction', shift', n, z, hsplit', hfraction', hz, hn, rfl⟩
    obtain ⟨rfl, rfl⟩ := Prod.mk.inj (hsplit.symm.trans hsplit')
    obtain ⟨rfl, rfl⟩ := Prod.mk.inj (hfraction.symm.trans hfraction')
    exact ⟨z, exponentOf?_eq_some_iff.2 hz,
      Option.bind_eq_some_iff.2 ⟨n, natOf?_eq_some_iff.2 hn, rfl⟩⟩

end Numeral

/-- **Reading finds what a numeral denotes.** -/
theorem denotes_iff {cs : List Char} {negative : Bool} {a : ℚ} :
    Denotes cs negative a ↔ ∃ x, ofText? cs = some x ∧ x.negative = negative ∧ x.amount = a := by
  rw [denotes_iff_splitSign, amount_iff]
  constructor
  · rintro ⟨hsign, whole, after, fraction, shift, n, z, hsplit, hfraction, hshift, hspells, ha⟩
    exact ⟨_, ofText?_eq_some_iff.2 ⟨whole, after, fraction, shift, n, z, hsplit, hfraction, hshift,
      hspells, rfl⟩, hsign, ha⟩
  · rintro ⟨x, hx, hsign, ha⟩
    obtain ⟨whole, after, fraction, shift, n, z, hsplit, hfraction, hshift, hspells, rfl⟩ :=
      ofText?_eq_some_iff.1 hx
    exact ⟨hsign, whole, after, fraction, shift, n, z, hsplit, hfraction, hshift, hspells, ha⟩

/-- A numeral denotes one sign and one amount. -/
theorem Denotes.unique {cs : List Char} {negative negative' : Bool} {a a' : ℚ}
    (h : Denotes cs negative a) (h' : Denotes cs negative' a') : negative = negative' ∧ a = a' := by
  obtain ⟨x, hx, rfl, rfl⟩ := denotes_iff.1 h
  obtain ⟨x', hx', rfl, rfl⟩ := denotes_iff.1 h'
  obtain rfl := Option.some.inj (hx.symm.trans hx')
  exact ⟨rfl, rfl⟩

/-! ### How many digits there are -/

/-- Digits are smaller than their base. -/
theorem lt_base_of_digits {base : ℕ} {cs : List Char} {vs : List ℕ}
    (h : cs.Forall₂ (IsDigit base) vs) : ∀ v ∈ vs, v < base := by
  induction h with
  | nil =>
      intro v hv
      cases hv
  | cons hv _ ih => exact List.forall_mem_cons.2 ⟨hv.1, ih⟩

/-- The digits from the first one that is not zero are as many as the size of their number. -/
theorem sized_of_spells {cs : List Char} {n : ℕ} (h : Spells 10 cs n) (hn : n ≠ 0) :
    0 < (cs.dropWhile (· = '0')).length ∧ 10 ^ ((cs.dropWhile (· = '0')).length - 1) ≤ n ∧
      n < 10 ^ (cs.dropWhile (· = '0')).length := by
  obtain ⟨-, vs, hvs, rfl⟩ := h
  induction hvs with
  | nil => exact absurd rfl hn
  | @cons c v cs vs hv hvs ih =>
      have hlength := hvs.length_eq
      rw [List.reverse_cons, Nat.ofDigits_append, Nat.ofDigits_singleton,
        List.length_reverse] at hn ⊢
      obtain ⟨hv10, -, hc⟩ := hv
      rcases Nat.eq_zero_or_pos v with rfl | hpos
      · -- a zero in front
        have hzero : c = '0' := by
          rcases hc with rfl | rfl <;> rfl
        rw [Nat.mul_zero, Nat.add_zero] at hn ⊢
        rw [List.dropWhile_cons_of_pos (by simpa using hzero)]
        exact ih hn
      · have hnonzero : c ≠ '0' := by
          interval_cases v <;> rcases hc with rfl | rfl <;> decide
        have hrest : Nat.ofDigits 10 vs.reverse < 10 ^ vs.length := by
          have hsmall := Nat.ofDigits_lt_base_pow_length (by norm_num : 1 < 10)
            fun v hv => lt_base_of_digits hvs v (List.mem_reverse.1 hv)
          rwa [List.length_reverse] at hsmall
        rw [List.dropWhile_cons_of_neg (by simpa using hnonzero), List.length_cons,
          Nat.add_sub_cancel, hlength, pow_succ]
        refine ⟨Nat.succ_pos _, ?_, ?_⟩
        · exact (Nat.le_mul_of_pos_right _ hpos).trans (Nat.le_add_left _ _)
        · have := Nat.mul_le_mul_left (10 ^ vs.length) (show v ≤ 9 by omega)
          omega

/-- **The digits of a numeral that was read are counted.** -/
theorem Numeral.sized_ofText? {cs : List Char} {x : Numeral} (h : ofText? cs = some x) :
    x.Sized := by
  obtain ⟨whole, after, fraction, shift, n, z, -, -, -, hspells, rfl⟩ := ofText?_eq_some_iff.1 h
  exact sized_of_spells hspells

end Vantage.Decimal
