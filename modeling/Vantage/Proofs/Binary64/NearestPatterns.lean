/-
**The bit pattern nearest to an exact number.**

Bit patterns without sign stand for ever more ticks, and so the nearest one to an exact number of
ticks is known by its two neighbours: the number lies between the points halfway to them, and on one
of these points only if the pattern is even. Infinity has its place among the patterns, one step
above the largest finite number; a number that is nearest to it, or to a pattern beyond, is out of
range.

Main definitions:

* `Vantage.Binary64.NearestPattern` — the pattern nearest to a number of ticks, the even one of two.

Main results:

* `Vantage.Binary64.NearestPattern.dist_le`, `Vantage.Binary64.NearestPattern.tie` — no other
  pattern is nearer, and one that is equally near is an odd neighbour;
* `Vantage.Binary64.NearestPattern.unique` — there is one such pattern;
* `Vantage.Binary64.NearestPattern.infinite_le_iff` — **where the range ends**;
* `Vantage.Binary64.nearestPattern_patternOf` — **a quotient is rounded to the nearest pattern**.
-/

import Vantage.Decimal.Rounding
import Vantage.Proofs.Binary64.Nearest
import Vantage.Proofs.Binary64.Patterns

set_option relaxedAutoImplicit false
set_option autoImplicit false

namespace Vantage.Binary64

open Decimal (binade perOne spacing divRound patternOf infinite)

/-! ### Multiples of a spacing -/

/-- The pattern of a multiple of a spacing, also of the one that has a bit too many. -/
theorem patternTicks_multiple {k q : ℕ} (hq : q ≤ 2 ^ 53) (hfull : k = 0 ∨ 2 ^ 52 ≤ q) :
    patternTicks (k * 2 ^ 52 + q) = q * 2 ^ k := by
  rw [patternTicks]
  split
  next h =>
    obtain rfl : k = 0 := by omega
    omega
  next h =>
    rcases hq.lt_or_eq with hlt | rfl
    · rw [show (k * 2 ^ 52 + q) / 2 ^ 52 - 1 = k by omega,
        show 2 ^ 52 + (k * 2 ^ 52 + q) % 2 ^ 52 = q by omega]
    · rw [show (k * 2 ^ 52 + 2 ^ 53) / 2 ^ 52 - 1 = k + 1 by omega,
        show 2 ^ 52 + (k * 2 ^ 52 + 2 ^ 53) % 2 ^ 52 = 2 ^ 52 by omega]
      ring

/-! ### The nearest pattern -/

/-- The pattern that stands for the number of ticks nearest to `x`, and of two that are equally near
the even one: `x` is not beyond the point halfway to a neighbour. -/
structure NearestPattern (x : ℚ) (p : ℕ) : Prop where
  below : 2 * x ≤ patternTicks p + patternTicks (p + 1)
  above : ∀ o, o + 1 = p → (patternTicks o + patternTicks p : ℚ) ≤ 2 * x
  even_below : 2 * x = patternTicks p + patternTicks (p + 1) → 2 ∣ p
  even_above : ∀ o, o + 1 = p → (patternTicks o + patternTicks p : ℚ) = 2 * x → 2 ∣ p

namespace NearestPattern

variable {x : ℚ} {o p : ℕ}

theorem cast_patternTicks_le (h : o ≤ p) : (patternTicks o : ℚ) ≤ patternTicks p :=
  Nat.cast_le.2 (patternTicks_mono h)

/-- Less than half of a tick is rounded to zero. -/
theorem zero (h : 2 * x < 1) : NearestPattern x 0 := by
  have hone : (patternTicks 0 + patternTicks 1 : ℚ) = 1 := by
    rw [show patternTicks 0 = 0 from rfl, show patternTicks 1 = 1 from rfl, Nat.cast_zero,
      Nat.cast_one, zero_add]
  refine ⟨?_, fun o ho => absurd ho (Nat.succ_ne_zero o), fun _ => dvd_zero 2,
    fun o ho => absurd ho (Nat.succ_ne_zero o)⟩
  rw [hone]
  exact h.le

/-- **No other pattern is nearer.** -/
theorem dist_le (h : NearestPattern x p) (o : ℕ) :
    |x - patternTicks p| ≤ |x - patternTicks o| := by
  rcases lt_trichotomy o p with hlt | rfl | hgt
  · obtain ⟨p, rfl⟩ : ∃ p', p = p' + 1 := ⟨p - 1, by omega⟩
    have hhalf := h.above p rfl
    have hstep := cast_patternTicks_le (show o ≤ p by omega)
    have hself := cast_patternTicks_le (Nat.le_succ p)
    have hdist := le_abs_self (x - patternTicks o)
    exact abs_le.2 ⟨by linarith, by linarith⟩
  · exact le_rfl
  · have hhalf := h.below
    have hstep := cast_patternTicks_le (show p + 1 ≤ o by omega)
    have hself := cast_patternTicks_le (Nat.le_succ p)
    have hdist := neg_abs_le (x - patternTicks o)
    exact abs_le.2 ⟨by linarith, by linarith⟩

/-- **A pattern that is equally near is a neighbour**, and the other one is even. -/
theorem tie (h : NearestPattern x p) (hne : o ≠ p)
    (heq : |x - patternTicks o| = |x - patternTicks p|) : 2 ∣ p ∧ (o = p + 1 ∨ o + 1 = p) := by
  have hticks : (patternTicks o : ℚ) ≠ patternTicks p := by
    rw [Ne, Nat.cast_inj]
    exact fun hsame => hne (patternTicks_strictMono.injective hsame)
  have hhalf : (patternTicks o : ℚ) + patternTicks p = 2 * x := by
    rcases abs_eq_abs.1 heq with hsame | hopposite
    · exact absurd (by linarith) hticks
    · linarith
  rcases hne.lt_or_gt with hlt | hgt
  · obtain ⟨p, rfl⟩ : ∃ p', p = p' + 1 := ⟨p - 1, by omega⟩
    have hbound := h.above p rfl
    have hstep := cast_patternTicks_le (show o ≤ p by omega)
    have hsame : (patternTicks o : ℚ) = patternTicks p := by linarith
    obtain rfl : o = p := patternTicks_strictMono.injective (Nat.cast_inj.1 hsame)
    exact ⟨h.even_above o rfl hhalf, .inr rfl⟩
  · have hbound := h.below
    have hstep := cast_patternTicks_le (show p + 1 ≤ o by omega)
    have hsame : (patternTicks o : ℚ) = patternTicks (p + 1) := by linarith
    obtain rfl : o = p + 1 := patternTicks_strictMono.injective (Nat.cast_inj.1 hsame)
    exact ⟨h.even_below (by linarith), .inl rfl⟩

/-- **There is one nearest pattern.** -/
theorem unique (ho : NearestPattern x o) (hp : NearestPattern x p) : o = p := by
  by_contra hne
  have heq := le_antisymm (ho.dist_le p) (hp.dist_le o)
  obtain ⟨heven, hnext⟩ := hp.tie hne heq
  obtain ⟨heven', -⟩ := ho.tie (Ne.symm hne) heq.symm
  omega

/-- **Where the range ends**: halfway between the largest finite number and infinity. -/
theorem infinite_le_iff (h : NearestPattern x p) :
    infinite ≤ p ↔ (patternTicks (infinite - 1) + patternTicks infinite : ℚ) ≤ 2 * x := by
  have hinfinite : infinite = 0x7ff0000000000000 := rfl
  constructor
  · intro hp
    obtain ⟨p, rfl⟩ : ∃ p', p = p' + 1 := ⟨p - 1, by omega⟩
    have hhalf := h.above p rfl
    have hlast := cast_patternTicks_le (show infinite - 1 ≤ p by omega)
    have hnext := cast_patternTicks_le hp
    linarith
  · intro hx
    by_contra hp
    have hhalf := h.below
    have hlast := cast_patternTicks_le (show p ≤ infinite - 1 by omega)
    have hnext := cast_patternTicks_le (show p + 1 ≤ infinite by omega)
    -- the number is halfway between the last two patterns, of which the finite one is odd
    have hsame : (patternTicks p : ℚ) = patternTicks (infinite - 1) := by linarith
    have heven := h.even_below (by linarith)
    have hpattern := patternTicks_strictMono.injective (Nat.cast_inj.1 hsame)
    omega

end NearestPattern

/-! ### Quotients -/

variable {num den : ℕ}

/-- A quotient of natural numbers is rounded to the nearest one. -/
theorem roundsTo_divRound (num : ℕ) (hden : 0 < den) : RoundsTo den num (divRound num den) := by
  have hnum : (num : ℤ) = (num / den : ℕ) * den + (num % den : ℕ) := by
    exact_mod_cast (Nat.div_add_mod' num den).symm
  have hrest : num % den < den := Nat.mod_lt num hden
  rw [divRound, hnum]
  generalize num / den = q at *
  generalize num % den = rest at *
  have hq : 2 * (q : ℤ) * den = 2 * (q * den) := mul_assoc _ _ _
  have hq' : (2 * (q : ℤ) + 1) * den = 2 * (q * den) + den := by ring
  have hnext : 2 * ((q + 1 : ℕ) : ℤ) * den = 2 * (q * den) + 2 * den := by push_cast; ring
  have hnext' : (2 * ((q + 1 : ℕ) : ℤ) + 1) * den = 2 * (q * den) + 3 * den := by push_cast; ring
  split
  next h =>
    constructor
    · rw [hq']
      omega
    · rw [hq]
      omega
    · rw [hq, hq']
      omega
  next h =>
    constructor
    · rw [hnext']
      omega
    · rw [hnext]
      omega
    · rw [hnext, hnext']
      omega

/-- The bit that is one. -/
@[irreducible] def onePlace : ℕ := 1074

theorem onePlace_eq : onePlace = 1074 := by rw [onePlace]

theorem perOne_eq : perOne = 2 ^ onePlace := by
  unfold perOne
  rw [← onePlace_eq]
  rfl

/-- A quotient is less than `2 ^ 53` of its spacings, and at least half as many unless the spacing
is the smallest one. -/
theorem spacing_spec (num : ℕ) (hden : 0 < den) :
    num * perOne < den * 2 ^ (53 + spacing num den) ∧
      (spacing num den = 0 ∨ den * 2 ^ (52 + spacing num den) ≤ num * perOne) := by
  rcases Nat.eq_zero_or_pos num with rfl | hnum
  · rw [spacing, if_pos rfl, Nat.zero_mul]
    exact ⟨by positivity, .inl rfl⟩
  rw [spacing, if_neg hnum.ne', Nat.pow_eq, perOne_eq, ← onePlace_eq]
  generalize hguess : num.log2 + onePlace - (den.log2 + 53) = guess
  have hexact : 0 < guess → den.log2 + 1 + (52 + guess) = num.log2 + onePlace := by omega
  have henough : num.log2 + 1 + onePlace ≤ den.log2 + (53 + (guess + 1)) := by omega
  split
  next h =>
    refine ⟨h, guess.eq_zero_or_pos.imp_right fun hpos => ?_⟩
    calc den * 2 ^ (52 + guess) ≤ 2 ^ (den.log2 + 1) * 2 ^ (52 + guess) :=
          Nat.mul_le_mul_right _ Nat.lt_log2_self.le
      _ = 2 ^ num.log2 * 2 ^ onePlace := by rw [← pow_add, ← pow_add, hexact hpos]
      _ ≤ num * 2 ^ onePlace := Nat.mul_le_mul_right _ (Nat.log2_self_le hnum.ne')
  next h =>
    refine ⟨?_, .inr ?_⟩
    · calc num * 2 ^ onePlace < 2 ^ (num.log2 + 1) * 2 ^ onePlace :=
            Nat.mul_lt_mul_of_pos_right Nat.lt_log2_self (by positivity)
        _ ≤ 2 ^ den.log2 * 2 ^ (53 + (guess + 1)) := by
            rw [← pow_add, ← pow_add]
            exact Nat.pow_le_pow_right (by norm_num) henough
        _ ≤ den * 2 ^ (53 + (guess + 1)) := Nat.mul_le_mul_right _ (Nat.log2_self_le hden.ne')
    · rw [show 52 + (guess + 1) = 53 + guess by ring]
      exact not_lt.1 h

/-- The nearest pattern to a fraction, by comparisons of whole numbers. -/
theorem NearestPattern.of_fraction {n d p : ℕ} (hd : 0 < d)
    (below : 2 * n ≤ (patternTicks p + patternTicks (p + 1)) * d)
    (above : ∀ o, o + 1 = p → (patternTicks o + patternTicks p) * d ≤ 2 * n)
    (even_below : 2 * n = (patternTicks p + patternTicks (p + 1)) * d → 2 ∣ p)
    (even_above : ∀ o, o + 1 = p → (patternTicks o + patternTicks p) * d = 2 * n → 2 ∣ p) :
    NearestPattern (n / d) p := by
  have hd' : (0 : ℚ) < d := Nat.cast_pos.2 hd
  constructor
  · rw [mul_div_assoc', div_le_iff₀ hd']
    exact_mod_cast below
  · intro o ho
    rw [mul_div_assoc', le_div_iff₀ hd']
    exact_mod_cast above o ho
  · intro heq
    rw [mul_div_assoc', div_eq_iff hd'.ne'] at heq
    exact even_below (by exact_mod_cast heq)
  · intro o ho heq
    rw [mul_div_assoc', eq_div_iff hd'.ne'] at heq
    exact even_above o ho (by exact_mod_cast heq)

/-- The multiple that is nearest to a fraction of less than `2 ^ 53` units has at most that many,
and at least half as many if the fraction has. -/
theorem RoundsTo.multiple_bounds {unit n q : ℕ} {small : Prop} (h : RoundsTo unit n q)
    (hlt : n < 2 ^ 53 * unit) (hfull : small ∨ 2 ^ 52 * unit ≤ n) :
    q ≤ 2 ^ 53 ∧ (small ∨ 2 ^ 52 ≤ q) := by
  obtain ⟨hbelow, habove, -⟩ := h
  norm_cast at hbelow habove
  constructor
  · by_contra hq
    have := Nat.mul_le_mul_right unit (show 2 ^ 53 + 1 ≤ q by omega)
    linarith
  · refine hfull.imp_right fun hn => ?_
    by_contra hq
    have := Nat.mul_le_mul_right unit (show q + 1 ≤ 2 ^ 52 by omega)
    linarith

/-- The pattern of the nearest multiple of the spacing is the nearest pattern. -/
theorem NearestPattern.of_multiple {n d k q : ℕ} (hd : 0 < d) (hlt : n < 2 ^ 53 * (d * 2 ^ k))
    (hfull : k = 0 ∨ 2 ^ 52 * (d * 2 ^ k) ≤ n) (h : RoundsTo (d * 2 ^ k) n q) :
    NearestPattern (n / d) (k * 2 ^ 52 + q) := by
  obtain ⟨hq, hq'⟩ := h.multiple_bounds hlt hfull
  have hticks : ∀ {a}, a ≤ 2 ^ 53 → k = 0 ∨ 2 ^ 52 ≤ a →
      patternTicks (k * 2 ^ 52 + a) * d = a * (d * 2 ^ k) := by
    intro a ha hk
    rw [patternTicks_multiple ha hk]
    ring
  generalize d * 2 ^ k = unit at *
  obtain ⟨hbelow, habove, heven⟩ := h
  norm_cast at hbelow habove heven
  have hparity : 2 ∣ q → 2 ∣ k * 2 ^ 52 + q := by omega
  have hself := hticks hq hq'
  generalize hp : k * 2 ^ 52 + q = p at *
  -- the next pattern is the next multiple, unless the multiple has a bit too many
  have hnext : 2 * n < (patternTicks p + patternTicks (p + 1)) * d ∨
      (patternTicks p + patternTicks (p + 1)) * d = (2 * q + 1) * unit := by
    rcases hq.lt_or_eq with hroom | rfl
    · right
      have hstep := hticks (show q + 1 ≤ 2 ^ 53 by omega) (hq'.imp_right (by omega))
      rw [show k * 2 ^ 52 + (q + 1) = p + 1 by omega] at hstep
      rw [add_mul, hself, hstep]
      ring
    · left
      have hstep := Nat.mul_le_mul_right d (patternTicks_mono (Nat.le_succ p))
      rw [add_mul]
      linarith
  -- the pattern before is the multiple before, unless the spacing is smaller there
  have hprevious : ∀ o, o + 1 = p → (patternTicks o + patternTicks p) * d < 2 * n ∨
      (patternTicks o + patternTicks p) * d + unit = 2 * q * unit := by
    intro o ho
    by_cases hroom : q ≠ 0 ∧ (k = 0 ∨ 2 ^ 52 + 1 ≤ q)
    · right
      obtain ⟨q, rfl⟩ := Nat.exists_eq_succ_of_ne_zero hroom.1
      have hstep := hticks (show q ≤ 2 ^ 53 by omega) (hroom.2.imp_right (by omega))
      rw [show k * 2 ^ 52 + q = o by omega] at hstep
      rw [add_mul, hself, hstep, Nat.succ_eq_add_one]
      ring
    · left
      have hleast : q = 2 ^ 52 := by omega
      have hlow : 2 ^ 52 * unit ≤ n := hfull.resolve_left (by omega)
      have hstep := Nat.mul_lt_mul_of_pos_right (patternTicks_strictMono (show o < p by omega)) hd
      rw [hleast] at hself
      rw [add_mul]
      linarith
  refine .of_fraction hd ?_ ?_ ?_ ?_
  · rcases hnext with hout | hin
    · exact hout.le
    · rw [hin]
      exact hbelow
  · intro o ho
    rcases hprevious o ho with hout | hin
    · exact hout.le
    · omega
  · intro heq
    rcases hnext with hout | hin
    · omega
    · exact hparity (heven (.inl (heq.trans hin)))
  · intro o ho heq
    rcases hprevious o ho with hout | hin
    · omega
    · exact hparity (heven (.inr (by omega)))

/-- **A quotient is rounded to the nearest pattern.** -/
theorem nearestPattern_patternOf (num : ℕ) (hden : 0 < den) :
    NearestPattern ((num * perOne : ℕ) / den) (patternOf num den) := by
  obtain ⟨hlt, hfull⟩ := spacing_spec num hden
  have hscale : ∀ a, den * 2 ^ (a + spacing num den) = 2 ^ a * (den * 2 ^ spacing num den) := by
    intro a
    rw [pow_add]
    ring
  rw [hscale] at hlt hfull
  exact .of_multiple hden hlt hfull (roundsTo_divRound _ (by positivity))

end Vantage.Binary64
