/-
**Ids and fingerprints given as texts.**

What a text denotes is said by a grammar: an id is a number in decimal digits with an optional sign,
a fingerprint one with an optional plus sign, in hexadecimal digits after a mark. A text is read
when it has this form, apart from white space around it, and its number fits; every other text is
named by a fault, as it was given.

Main definitions:

* `Decimal.Marked` — decimal digits, or hexadecimal ones after a mark, and what they denote.

Main results:

* `Decimal.numberOf?_eq_some_iff` — reading the digits of a fingerprint;
* `idOf?_eq_some_iff`, `fingerprintOf?_eq_some_iff` — **what a stripped text denotes**;
* `readId_eq`, `readFingerprint_eq` — a text that denotes nothing is named as it was given;
* `whole_numbers_read` — **ids and fingerprints are read by their grammar**.
-/

import Vantage.Index.Reading
import Vantage.Proofs.Digits
import Vantage.Proofs.Outcomes

set_option relaxedAutoImplicit false
set_option autoImplicit false

namespace Vantage

namespace Decimal

/-! ### Digits after a mark -/

/-- Decimal digits, or hexadecimal ones after a mark, with an optional plus sign in front of the
digits, and the number that they denote. -/
inductive Marked : List Char → ℕ → Prop where
  | decimal {cs : List Char} {n : ℕ} (h : Unsigned 10 cs n) : Marked cs n
  | hexadecimal {mark : Char} {cs : List Char} {n : ℕ} (hmark : mark = 'x' ∨ mark = 'X')
      (h : Unsigned 16 cs n) : Marked ('0' :: mark :: cs) n

variable {base n : ℕ} {cs : List Char}

/-- The mark of hexadecimal digits is not a decimal digit. -/
theorem not_unsigned_marked {mark : Char} (hmark : mark = 'x' ∨ mark = 'X') :
    ¬ Unsigned 10 ('0' :: mark :: cs) n := by
  intro h
  cases h with
  | plain h =>
      obtain ⟨v, hv, -, hc⟩ :=
        h.forall_isDigit mark (List.mem_cons_of_mem _ List.mem_cons_self)
      interval_cases v <;> rcases hmark with rfl | rfl <;> revert hc <;> decide

/-- **Reading the digits of a fingerprint.** -/
theorem numberOf?_eq_some_iff : numberOf? cs = some n ↔ Marked cs n := by
  unfold numberOf?
  constructor
  · intro h
    split at h
    next => exact .hexadecimal (.inl rfl) (unsignedOf?_eq_some_iff.1 h)
    next => exact .hexadecimal (.inr rfl) (unsignedOf?_eq_some_iff.1 h)
    next => exact .decimal (unsignedOf?_eq_some_iff.1 h)
  · intro h
    cases h with
    | hexadecimal hmark h =>
        rcases hmark with rfl | rfl
        · exact unsignedOf?_eq_some_iff.2 h
        · exact unsignedOf?_eq_some_iff.2 h
    | decimal h =>
        split
        next => exact absurd h (not_unsigned_marked (.inl rfl))
        next => exact absurd h (not_unsigned_marked (.inr rfl))
        next => exact unsignedOf?_eq_some_iff.2 h

end Decimal

open Decimal

variable {cs : List Char}

/-! ### What a stripped text denotes -/

theorem isId_iff {z : ℤ} : isId z = true ↔ -2 ^ 63 ≤ z ∧ z < 2 ^ 63 := by
  rw [isId, Bool.and_eq_true, decide_eq_true_iff, decide_eq_true_iff,
    show Int64.minValue.toInt = -2 ^ 63 from rfl,
    show Int64.maxValue.toInt = 2 ^ 63 - 1 from rfl]
  omega

/-- **The id that a stripped text denotes.** -/
theorem idOf?_eq_some_iff {id : Int64} :
    idOf? cs = some id ↔ ∃ z, Signed cs z ∧ -2 ^ 63 ≤ z ∧ z < 2 ^ 63 ∧ Int64.ofInt z = id := by
  rw [idOf?, Option.map_eq_some_iff]
  refine exists_congr fun z => ?_
  rw [Option.filter_eq_some_iff, signedOf?_eq_some_iff, isId_iff]
  tauto

/-- **The fingerprint that a stripped text denotes.** -/
theorem fingerprintOf?_eq_some_iff {value : UInt64} :
    fingerprintOf? cs = some value ↔ ∃ n, Marked cs n ∧ n < 2 ^ 64 ∧ UInt64.ofNat n = value := by
  rw [fingerprintOf?, Option.map_eq_some_iff]
  refine exists_congr fun n => ?_
  rw [Option.filter_eq_some_iff, numberOf?_eq_some_iff, decide_eq_true_iff, and_assoc]
  rfl

/-! ### Reading -/

/-- A text that denotes no id is named as it was given. -/
theorem readId_eq (text : String) :
    readId text = (idOf? (Text.trim text.toList)).elim (.error (.badId text)) .ok := by
  unfold readId
  cases idOf? (Text.trim text.toList) <;> rfl

/-- A text that denotes no fingerprint is named as it was given. -/
theorem readFingerprint_eq (text : String) :
    readFingerprint text =
      (fingerprintOf? (Text.trim text.toList)).elim (.error (.badFingerprint text)) .ok := by
  unfold readFingerprint
  cases fingerprintOf? (Text.trim text.toList) <;> rfl

/-! ### Numbers written out -/

/-- Digits are not white space. -/
theorem isBlank_of_spells {base n : ℕ} (h : Spells base cs n) : ∀ c ∈ cs, Text.isBlank c = false := by
  intro c hc
  obtain ⟨v, -, hv, hcv⟩ := h.forall_isDigit c hc
  interval_cases v <;> rcases hcv with rfl | rfl <;> decide

/-- A number with a sign is denoted by its text, which has no white space. -/
theorem signed_toString (z : ℤ) :
    Signed (toString z).toList z ∧ ∀ c ∈ (toString z).toList, Text.isBlank c = false := by
  cases z with
  | ofNat n =>
      have hspells := spells_toDigits (by decide : 1 < 10) (by decide) n
      rw [show (toString (Int.ofNat n)).toList = Nat.toDigits 10 n from String.toList_ofList]
      exact ⟨.plain hspells, isBlank_of_spells hspells⟩
  | negSucc n =>
      have hspells := spells_toDigits (by decide : 1 < 10) (by decide) (n + 1)
      have htext : (toString (Int.negSucc n)).toList = '-' :: Nat.toDigits 10 (n + 1) := by
        change ("-" ++ Nat.repr (n + 1)).toList = _
        rw [String.toList_append, Nat.toList_repr]
        rfl
      rw [htext]
      exact ⟨.minus hspells, List.forall_mem_cons.2 ⟨by decide, isBlank_of_spells hspells⟩⟩

/-- **Ids and fingerprints are read by their grammar.**  A text is an id when, without the white
space at its ends, it consists of decimal digits with an optional sign that denote a number of 64
bits with a sign; it is a fingerprint when it consists of decimal digits, or of hexadecimal ones
after a mark, with an optional plus sign, that denote a number of 64 bits. Every other text is named
by a fault, with its white space. In particular every id and every fingerprint is read back from its
decimal text, and a fingerprint from its hexadecimal digits in either case, whatever white space is
around. -/
theorem whole_numbers_read :
    (∀ text : String, ∃ t, (∀ u, Text.Stripped text.toList u ↔ u = t) ∧
      (∀ id, readId text = .ok id ↔
        ∃ z, Signed t z ∧ -2 ^ 63 ≤ z ∧ z < 2 ^ 63 ∧ Int64.ofInt z = id) ∧
      (∀ fault, readId text = .error fault ↔
        fault = .badId text ∧ ∀ z, Signed t z → ¬ (-2 ^ 63 ≤ z ∧ z < 2 ^ 63)) ∧
      (∀ value, readFingerprint text = .ok value ↔
        ∃ n, Marked t n ∧ n < 2 ^ 64 ∧ UInt64.ofNat n = value) ∧
      (∀ fault, readFingerprint text = .error fault ↔
        fault = .badFingerprint text ∧ ∀ n, Marked t n → ¬ n < 2 ^ 64)) ∧
    ∀ before after : List Char, (∀ c ∈ before, Text.isBlank c = true) →
      (∀ c ∈ after, Text.isBlank c = true) →
        (∀ id : Int64, readId (String.ofList (before ++ (toString id).toList ++ after)) = .ok id) ∧
        ∀ value : UInt64,
          readFingerprint (String.ofList (before ++ (toString value).toList ++ after)) = .ok value ∧
          ∀ (mark : Char) (digits : List Char), mark = 'x' ∨ mark = 'X' →
            digits = Nat.toDigits 16 value.toNat ∨
              digits = (Nat.toDigits 16 value.toNat).map Char.toUpper →
            readFingerprint (String.ofList (before ++ '0' :: mark :: digits ++ after)) =
              .ok value := by
  constructor
  · intro text
    refine ⟨Text.trim text.toList, fun u => Text.stripped_iff, fun id => ?_, fun fault => ?_,
      fun value => ?_, fun fault => ?_⟩
    · rw [readId_eq, elim_eq_ok_iff, idOf?_eq_some_iff]
    · rw [readId_eq, elim_eq_error_iff]
      refine and_congr_right fun _ => ?_
      simp only [ne_eq, idOf?_eq_some_iff, not_exists, not_and]
      exact ⟨fun h z hz hlow hhigh => h _ z hz hlow hhigh rfl,
        fun h id z hz hlow hhigh _ => h z hz hlow hhigh⟩
    · rw [readFingerprint_eq, elim_eq_ok_iff, fingerprintOf?_eq_some_iff]
    · rw [readFingerprint_eq, elim_eq_error_iff]
      refine and_congr_right fun _ => ?_
      simp only [ne_eq, fingerprintOf?_eq_some_iff, not_exists, not_and]
      exact ⟨fun h n hn hhigh => h _ n hn hhigh rfl, fun h value n hn hhigh _ => h n hn hhigh⟩
  · intro before after hbefore hafter
    have hfingerprint : ∀ {t : List Char} (value : UInt64), Marked t value.toNat →
        (∀ c ∈ t, Text.isBlank c = false) →
          readFingerprint (String.ofList (before ++ t ++ after)) = .ok value := by
      intro t value hmarked hblank
      rw [readFingerprint_eq, elim_eq_ok_iff, String.toList_ofList,
        Text.trim_around hbefore hafter hblank, fingerprintOf?_eq_some_iff]
      exact ⟨_, hmarked, value.toNat_lt, UInt64.ofNat_toNat⟩
    refine ⟨fun id => ?_, fun value => ⟨?_, fun mark digits hmark hdigits => ?_⟩⟩
    · obtain ⟨hsigned, hblank⟩ := signed_toString id.toInt
      rw [readId_eq, elim_eq_ok_iff, String.toList_ofList,
        show toString id = toString id.toInt from rfl,
        Text.trim_around hbefore hafter hblank, idOf?_eq_some_iff]
      exact ⟨_, hsigned, id.le_toInt, id.toInt_lt, id.ofInt_toInt⟩
    · have hspells := spells_toDigits (by decide : 1 < 10) (by decide) value.toNat
      rw [show (toString value).toList = Nat.toDigits 10 value.toNat from String.toList_ofList]
      exact hfingerprint value (.decimal (.plain hspells)) (isBlank_of_spells hspells)
    · have hspells : Spells 16 digits value.toNat := by
        have hsmall := spells_toDigits (by decide : 1 < 16) le_rfl value.toNat
        rcases hdigits with rfl | rfl
        · exact hsmall
        · exact spells_upper hsmall
      have hblank : Text.isBlank mark = false := by
        rcases hmark with rfl | rfl <;> decide
      refine hfingerprint value (.hexadecimal hmark (.plain hspells)) ?_
      exact List.forall_mem_cons.2 ⟨by decide,
        List.forall_mem_cons.2 ⟨hblank, isBlank_of_spells hspells⟩⟩

/-- A plus sign stands behind the mark, not in front of it. -/
example : readFingerprint " 0x+fF" = .ok 255 ∧
    readFingerprint "+0xff" = .error (.badFingerprint "+0xff") := by
  decide +kernel

/-- The least id has an amount that no id has. -/
example : readId "-9223372036854775808" = .ok (-9223372036854775808) ∧
    readId "9223372036854775808 " = .error (.badId "9223372036854775808 ") := by
  decide +kernel

end Vantage
