/-
**What digits denote.**

A digit string is read from the front, and its number grows by one digit at a time. It denotes the
same number when every digit is weighed by its place, however many zeros stand in front and whether
the letters among the digits are large or small.

Main definitions:

* `Decimal.IsDigit` — a digit of a base up to sixteen, and its value;
* `Decimal.Spells` — one or more digits, and the number that they denote;
* `Decimal.Unsigned`, `Decimal.Signed` — the same with an optional plus sign, or with an optional
  sign.

Main results:

* `Decimal.digit?_eq_some_iff`, `Decimal.natOf?_eq_some_iff`, `Decimal.unsignedOf?_eq_some_iff`,
  `Decimal.signedOf?_eq_some_iff` — **reading finds what digits denote**;
* `Decimal.spells_toDigits`, `Decimal.spells_upper` — a number is denoted by its digits, whether
  large or small.
-/

import Mathlib.Data.List.Forall2
import Mathlib.Data.Nat.Digits.Defs
import Mathlib.Tactic.IntervalCases
import Mathlib.Tactic.Ring
import Vantage.Decimal.Integer

set_option relaxedAutoImplicit false
set_option autoImplicit false

namespace Vantage.Decimal

/-! ### Digits -/

/-- A digit of a base up to sixteen, and its value; letters count in either case. -/
def IsDigit (base : ℕ) (c : Char) (v : ℕ) : Prop :=
  v < base ∧ v < 16 ∧ (c = v.digitChar ∨ c = v.digitChar.toUpper)

theorem le_toNat_of_le {c d : Char} (h : c ≤ d) : c.toNat ≤ d.toNat := UInt32.le_iff_toNat_le.1 h

/-- **The value of a digit.** -/
theorem digit?_eq_some_iff {base : ℕ} {c : Char} {v : ℕ} :
    digit? base c = some v ↔ IsDigit base c v := by
  rw [digit?, Option.filter_eq_some_iff, decide_eq_true_iff, IsDigit, and_comm]
  refine and_congr_right fun _ => ?_
  constructor
  · intro h
    split_ifs at h with hdecimal hlower hupper
    · have hlow : 48 ≤ c.toNat := le_toNat_of_le hdecimal.1
      have hhigh : c.toNat ≤ 57 := le_toNat_of_le hdecimal.2
      have hv : c.toNat - 48 = v := Option.some.inj h
      refine ⟨by omega, .inl (Char.toNat_inj.1 ?_)⟩
      rw [Nat.toNat_digitChar_of_lt_ten (by omega)]
      omega
    · have hlow : 97 ≤ c.toNat := le_toNat_of_le hlower.1
      have hhigh : c.toNat ≤ 102 := le_toNat_of_le hlower.2
      have hv : c.toNat - 97 + 10 = v := Option.some.inj h
      have hletter : ∀ d, 10 ≤ d → d < 16 → d.digitChar.toNat = d + 87 := by
        intro d h10 h16
        interval_cases d <;> rfl
      refine ⟨by omega, .inl (Char.toNat_inj.1 ?_)⟩
      rw [hletter v (by omega) (by omega)]
      omega
    · have hlow : 65 ≤ c.toNat := le_toNat_of_le hupper.1
      have hhigh : c.toNat ≤ 70 := le_toNat_of_le hupper.2
      have hv : c.toNat - 65 + 10 = v := Option.some.inj h
      have hletter : ∀ d, 10 ≤ d → d < 16 → d.digitChar.toUpper.toNat = d + 55 := by
        intro d h10 h16
        interval_cases d <;> rfl
      refine ⟨by omega, .inr (Char.toNat_inj.1 ?_)⟩
      rw [hletter v (by omega) (by omega)]
      omega
  · rintro ⟨hv, hc⟩
    interval_cases v <;> rcases hc with rfl | rfl <;> rfl

/-- A sign is not a digit. -/
theorem IsDigit.ne_sign {base : ℕ} {c : Char} {v : ℕ} (h : IsDigit base c v) :
    c ≠ '+' ∧ c ≠ '-' := by
  obtain ⟨-, hv, hc⟩ := h
  interval_cases v <;> rcases hc with rfl | rfl <;> decide

/-! ### Digits in a row -/

/-- One or more digits, the weightiest in front, and the number that they denote. -/
def Spells (base : ℕ) (cs : List Char) (n : ℕ) : Prop :=
  cs ≠ [] ∧ ∃ vs, cs.Forall₂ (IsDigit base) vs ∧ Nat.ofDigits base vs.reverse = n

variable {base : ℕ} {cs : List Char} {n : ℕ}

/-- Reading digits after others weighs these by the places that the later ones take. -/
theorem append?_eq_some_iff {m : ℕ} :
    append? base m cs = some n ↔
      ∃ vs, cs.Forall₂ (IsDigit base) vs ∧
        m * base ^ cs.length + Nat.ofDigits base vs.reverse = n := by
  induction cs generalizing m with
  | nil => simp [append?, List.forall₂_nil_left_iff]
  | cons c rest ih =>
      rw [append?, Option.bind_eq_some_iff]
      have hweigh : ∀ (v : ℕ) {vs : List ℕ}, rest.Forall₂ (IsDigit base) vs →
          m * base ^ (c :: rest).length + Nat.ofDigits base (v :: vs).reverse =
            (base * m + v) * base ^ rest.length + Nat.ofDigits base vs.reverse := by
        intro v vs hvs
        rw [List.reverse_cons, Nat.ofDigits_append, Nat.ofDigits_singleton, List.length_reverse,
          ← hvs.length_eq, List.length_cons]
        ring
      constructor
      · rintro ⟨v, hv, h⟩
        obtain ⟨vs, hvs, rfl⟩ := ih.1 h
        exact ⟨v :: vs, .cons (digit?_eq_some_iff.1 hv) hvs, hweigh v hvs⟩
      · rintro ⟨vs, hvs, rfl⟩
        cases hvs with
        | @cons _ v _ vs hv hvs =>
            exact ⟨v, digit?_eq_some_iff.2 hv, ih.2 ⟨vs, hvs, (hweigh v hvs).symm⟩⟩

/-- **Reading digits** finds the number that they denote. -/
theorem natOf?_eq_some_iff : natOf? base cs = some n ↔ Spells base cs n := by
  rw [natOf?, Spells]
  cases cs with
  | nil => simp
  | cons c rest => simp [append?_eq_some_iff]

theorem Spells.head {c : Char} {rest : List Char} (h : Spells base (c :: rest) n) :
    ∃ v, IsDigit base c v := by
  obtain ⟨-, vs, hvs, -⟩ := h
  cases hvs with
  | cons hv _ => exact ⟨_, hv⟩

/-- Digits are digits, one and all. -/
theorem Spells.forall_isDigit (h : Spells base cs n) : ∀ c ∈ cs, ∃ v, IsDigit base c v := by
  obtain ⟨-, vs, hvs, -⟩ := h
  induction hvs with
  | nil =>
      intro c hc
      cases hc
  | cons hv _ ih => exact List.forall_mem_cons.2 ⟨⟨_, hv⟩, ih⟩

/-! ### Signs -/

/-- Digits with an optional plus sign, and the number that they denote. -/
inductive Unsigned (base : ℕ) : List Char → ℕ → Prop where
  | plain {cs : List Char} {n : ℕ} (h : Spells base cs n) : Unsigned base cs n
  | plus {cs : List Char} {n : ℕ} (h : Spells base cs n) : Unsigned base ('+' :: cs) n

/-- Decimal digits with an optional sign, and the number that they denote. -/
inductive Signed : List Char → ℤ → Prop where
  | plain {cs : List Char} {n : ℕ} (h : Spells 10 cs n) : Signed cs n
  | plus {cs : List Char} {n : ℕ} (h : Spells 10 cs n) : Signed ('+' :: cs) n
  | minus {cs : List Char} {n : ℕ} (h : Spells 10 cs n) : Signed ('-' :: cs) (-n)

/-- **Reading digits with an optional plus sign.** -/
theorem unsignedOf?_eq_some_iff : unsignedOf? base cs = some n ↔ Unsigned base cs n := by
  unfold unsignedOf?
  constructor
  · intro h
    split at h
    next => exact .plus (natOf?_eq_some_iff.1 h)
    next => exact .plain (natOf?_eq_some_iff.1 h)
  · intro h
    cases h with
    | plus h => exact natOf?_eq_some_iff.2 h
    | plain h =>
        split
        next =>
          obtain ⟨v, hv⟩ := h.head
          exact absurd rfl hv.ne_sign.1
        next => exact natOf?_eq_some_iff.2 h

/-- **Reading digits with an optional sign.** -/
theorem signedOf?_eq_some_iff {z : ℤ} : signedOf? cs = some z ↔ Signed cs z := by
  unfold signedOf?
  constructor
  · intro h
    split at h
    next digits =>
      cases hn : natOf? 10 digits with
      | none => rw [hn] at h; cases h
      | some n =>
          rw [hn] at h
          cases h
          exact .minus (natOf?_eq_some_iff.1 hn)
    next =>
      obtain ⟨n, hn, rfl⟩ := Option.map_eq_some_iff.1 h
      exact .plus (natOf?_eq_some_iff.1 hn)
    next =>
      obtain ⟨n, hn, rfl⟩ := Option.map_eq_some_iff.1 h
      exact .plain (natOf?_eq_some_iff.1 hn)
  · intro h
    cases h with
    | @minus digits n h =>
        change (natOf? 10 digits >>= fun n => pure (n : ℤ)).map (fun n => -n) = _
        rw [natOf?_eq_some_iff.2 h]
        rfl
    | plus h => exact Option.map_eq_some_iff.2 ⟨_, natOf?_eq_some_iff.2 h, rfl⟩
    | plain h =>
        split
        next =>
          obtain ⟨v, hv⟩ := h.head
          exact absurd rfl hv.ne_sign.2
        next =>
          obtain ⟨v, hv⟩ := h.head
          exact absurd rfl hv.ne_sign.1
        next => exact Option.map_eq_some_iff.2 ⟨_, natOf?_eq_some_iff.2 h, rfl⟩

/-! ### Numbers written out -/

theorem isDigit_digitChar {v : ℕ} (hv : v < base) (hbase : base ≤ 16) :
    IsDigit base v.digitChar v :=
  ⟨hv, by omega, .inl rfl⟩

/-- **A number is denoted by its digits.** -/
theorem spells_toDigits (hbase : 1 < base) (h16 : base ≤ 16) (n : ℕ) :
    Spells base (Nat.toDigits base n) n := by
  refine ⟨Nat.toDigits_ne_nil, ?_⟩
  induction n using Nat.strongRecOn with
  | ind n ih =>
      rw [Nat.toDigits_eq_if hbase]
      split
      next hlt =>
        exact ⟨[n], .cons (isDigit_digitChar hlt h16) .nil, by simp⟩
      next hge =>
        obtain ⟨vs, hvs, hval⟩ := ih (n / base) (Nat.div_lt_self (by omega) hbase)
        have hlast := isDigit_digitChar (Nat.mod_lt n (by omega)) h16
        refine ⟨vs ++ [n % base], List.rel_append hvs (.cons hlast .nil), ?_⟩
        rw [List.reverse_append, List.reverse_singleton, List.singleton_append, Nat.ofDigits_cons,
          hval]
        exact Nat.mod_add_div n base

/-- Small letters may be replaced by large ones. -/
theorem spells_upper (h : Spells base cs n) : Spells base (cs.map Char.toUpper) n := by
  obtain ⟨hne, vs, hvs, hval⟩ := h
  refine ⟨by simpa using hne, vs, ?_, hval⟩
  refine List.forall₂_map_left_iff.2 (hvs.imp fun c v hc => ?_)
  have hlarge : ∀ d < 16, d.digitChar.toUpper.toUpper = d.digitChar.toUpper := by decide
  obtain ⟨hv, h16, rfl | rfl⟩ := hc
  · exact ⟨hv, h16, .inr rfl⟩
  · exact ⟨hv, h16, .inr (hlarge v h16)⟩

end Vantage.Decimal
