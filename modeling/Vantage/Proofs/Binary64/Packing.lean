/-
**Binary64 numbers taken apart and put together.**

A binary64 number is a sign, a mantissa of at most 53 bits and an exponent, or an infinity, or not
a number.  The arithmetic of the language works on numbers taken apart in this way and packs the
result again.  A finite result has to be rounded before it is packed; packing then loses nothing,
except that an exponent which is too large gives an infinity.

Main definitions:

* `Vantage.Binary64.parts` — a number taken apart;
* `Vantage.Binary64.Rounded` — a mantissa and an exponent as packing expects them.

Main results:

* `Vantage.Binary64.unpack_pack` — what packing a rounded number gives;
* `Vantage.Binary64.rounded_parts` — a number taken apart is rounded, and its exponent fits.
-/

import Mathlib

set_option relaxedAutoImplicit false
set_option autoImplicit false

namespace Vantage.Binary64

open Float.Model (UnpackedFloat Format)
open Float.Model.UnpackedFloat

/-! ### Rounded numbers -/

/-- A number taken apart. -/
def parts (x : Float) : UnpackedFloat := x.toModel.unpack

/-- A mantissa of at most 53 bits with an exponent that is the least one unless all 53 are used. -/
def Rounded (m : ℕ) (e : ℤ) : Prop := m < 2 ^ 53 ∧ -1074 ≤ e ∧ (2 ^ 52 ≤ m ∨ e = -1074)

/-- What is to be packed is rounded if it is finite. -/
def RoundedParts : UnpackedFloat → Prop
  | .finite _ m e _ => Rounded m e
  | _ => True

/-- The exponent of a finite number is within the range of the format. -/
def Fits : UnpackedFloat → Prop
  | .finite _ _ e _ => e ≤ 971
  | _ => True

/-! ### Packing -/

/-- Unpacking reads the three fields that were packed. -/
theorem unpack_packComponents (s : Sign) (e : BitVec 11) (m : BitVec 52) :
    unpack Format.binary64 (packComponents Format.binary64 s e m) =
      if e = -1#11 then if m = 0#52 then .infinity s else .notANumber
      else if e = 0#11 then
        if h : m = 0#52 then .zero s
        else .finite s m.toNat (-1074) (by simpa [BitVec.toNat_pos, BitVec.pos_iff_ne_zero])
      else .finite s (2 ^ 52 + m.toNat) ((e.toNat : ℤ) - 1075) (by positivity) := by
  have happ : (1#1 ++ m).toNat = 2 ^ 52 + m.toNat := by
    rw [BitVec.toNat_append, ← Nat.shiftLeft_add_eq_or_of_lt m.isLt]
    simp [Nat.shiftLeft_eq]
  unfold unpack
  simp only [unpackMantissa_packComponents, unpackExponent_packComponents,
    unpackSign_packComponents, Sign.ofBitVec_toBitVec]
  split
  · rfl
  · split
    next he =>
      subst he
      rfl
    next => simp only [happ]; rfl

/-- A rounded mantissa below `2 ^ 52` goes with the least exponent; one above is normal. -/
theorem log2_add_one_eq_iff {m : ℕ} (hm : 0 < m) (h : m < 2 ^ 53) :
    m.log2 + 1 = 53 ↔ 2 ^ 52 ≤ m := by
  have hlt : m.log2 < 53 := (Nat.log2_lt hm.ne').2 h
  rw [← Nat.le_log2 hm.ne']
  omega

/-- The components of a normal number: the leading bit of the mantissa is left out. -/
theorem unpack_packComponents_normal (s : Sign) {m : ℕ} {e : ℤ} (hm : 0 < m) (hfull : 2 ^ 52 ≤ m)
    (hm53 : m < 2 ^ 53) (he : -1074 ≤ e) (hbig : e ≤ 971) :
    unpack Format.binary64 (packComponents Format.binary64 s
      (BitVec.ofNat 11 (e + 1075).toNat) (BitVec.ofNat 52 m)) = .finite s m e hm := by
  refine (unpack_packComponents s _ _).trans ?_
  have hE : (BitVec.ofNat 11 (e + 1075).toNat).toNat = (e + 1075).toNat := by
    rw [BitVec.toNat_ofNat, Nat.mod_eq_of_lt (by omega)]
  have hM : (BitVec.ofNat 52 m).toNat = m - 2 ^ 52 := by
    rw [BitVec.toNat_ofNat]
    omega
  have h₁ : BitVec.ofNat 11 (e + 1075).toNat ≠ -1#11 := by
    intro hEq
    have := congrArg BitVec.toNat hEq
    rw [hE] at this
    change (e + 1075).toNat = 2047 at this
    omega
  have h₂ : BitVec.ofNat 11 (e + 1075).toNat ≠ 0#11 := by
    intro hEq
    have := congrArg BitVec.toNat hEq
    rw [hE] at this
    change (e + 1075).toNat = 0 at this
    omega
  rw [if_neg h₁, if_neg h₂, UnpackedFloat.finite.injEq, hE, hM]
  exact ⟨rfl, by omega, by omega⟩

/-- The components of a subnormal number: the mantissa stands as it is. -/
theorem unpack_packComponents_subnormal (s : Sign) {m : ℕ} (hm : 0 < m) (hsub : m < 2 ^ 52) :
    unpack Format.binary64 (packComponents Format.binary64 s 0#11 (BitVec.ofNat 52 m)) =
      .finite s m (-1074) hm := by
  refine (unpack_packComponents s _ _).trans ?_
  have hM : (BitVec.ofNat 52 m).toNat = m := by
    rw [BitVec.toNat_ofNat, Nat.mod_eq_of_lt hsub]
  have h₁ : BitVec.ofNat 52 m ≠ 0#52 := by
    intro hEq
    have := congrArg BitVec.toNat hEq
    rw [hM] at this
    change m = 0 at this
    omega
  rw [if_neg (by decide), if_pos rfl, dif_neg h₁]
  simp only [hM]

/-- **Packing a rounded number and unpacking it again** gives the number, or an infinity if its
exponent is too large. -/
theorem unpack_pack {u : UnpackedFloat} (h : RoundedParts u) :
    unpack Format.binary64 (pack Format.binary64 u) =
      match u with
      | .finite s m e hm => if e ≤ 971 then .finite s m e hm else .infinity s
      | u => u := by
  cases u with
  | infinity s => exact unpack_packComponents s (-1#11) 0
  | notANumber => exact unpack_packComponents .positive (-1#11) (1#52 <<< 51)
  | zero s => exact unpack_packComponents s 0 0
  | finite s m e hm =>
      obtain ⟨hm53, he, hlow⟩ := h
      have hb : (e + (Format.binary64.exponentBias : ℤ) +
          Format.binary64.mantissaBitsWithoutImplicit) = e + 1075 := by
        rw [add_assoc]
        rfl
      have hw : Format.binary64.mantissaBits = 53 := rfl
      have hx : 2 ^ Format.binary64.exponentBits = 2048 := rfl
      simp only [pack, hb, hw, hx]
      by_cases hbig : e ≤ 971
      · rw [if_neg (by omega), if_pos hbig]
        by_cases hn : 2 ^ 52 ≤ m
        · -- a normal number
          rw [if_pos ((log2_add_one_eq_iff hm hm53).2 hn)]
          exact unpack_packComponents_normal s hm hn hm53 he hbig
        · -- a subnormal number, which has the least exponent
          obtain rfl : e = -1074 := hlow.resolve_left hn
          rw [if_neg (mt (log2_add_one_eq_iff hm hm53).1 hn)]
          exact unpack_packComponents_subnormal s hm (by omega)
      · rw [if_pos (by omega), if_neg hbig]
        exact unpack_packComponents s (-1#11) 0

/-! ### Numbers taken apart -/

theorem roundedParts_unpack (b : BitVec Format.binary64.numBits) :
    RoundedParts (unpack Format.binary64 b) ∧ Fits (unpack Format.binary64 b) := by
  have hm := (@unpackMantissa Format.binary64 b).isLt
  have he := (@unpackExponent Format.binary64 b).isLt
  change _ < 2 ^ 52 at hm
  change _ < 2 ^ 11 at he
  have happ : (1#1 ++ @unpackMantissa Format.binary64 b).toNat =
      2 ^ 52 + (@unpackMantissa Format.binary64 b).toNat := by
    rw [BitVec.toNat_append, ← Nat.shiftLeft_add_eq_or_of_lt (by simpa using hm)]
    simp [Nat.shiftLeft_eq]
  have hbias : ((Format.binary64.exponentBias : ℤ) +
      Format.binary64.mantissaBitsWithoutImplicit) = 1075 := rfl
  unfold unpack
  simp only [hbias]
  split
  · split <;> exact ⟨trivial, trivial⟩
  next hinf =>
    have hlt : (@unpackExponent Format.binary64 b).toNat ≠ 2047 := by
      intro h
      exact hinf (BitVec.eq_of_toNat_eq h)
    split
    next hzero =>
      split
      · exact ⟨trivial, trivial⟩
      · simp only [RoundedParts, Fits, Rounded, hzero]
        change (_ ∧ _ ∧ _) ∧ (0 : ℤ) - 1075 + 1 ≤ 971
        refine ⟨⟨by omega, by decide, .inr (by decide)⟩, by decide⟩
    next hzero =>
      have hpos : (@unpackExponent Format.binary64 b).toNat ≠ 0 := by
        intro h
        exact hzero (BitVec.eq_of_toNat_eq h)
      simp only [RoundedParts, Fits, Rounded, happ]
      refine ⟨⟨by omega, by omega, .inl (by omega)⟩, by omega⟩

/-- A number taken apart is rounded. -/
theorem rounded_parts (x : Float) : RoundedParts (parts x) := (roundedParts_unpack _).1

/-- The exponent of a number is within the range of the format. -/
theorem fits_parts (x : Float) : Fits (parts x) := (roundedParts_unpack _).2

/-- Packing a rounded number whose exponent fits loses nothing. -/
theorem unpack_pack_of_fits {u : UnpackedFloat} (h : RoundedParts u) (hf : Fits u) :
    unpack Format.binary64 (pack Format.binary64 u) = u := by
  rw [unpack_pack h]
  cases u with
  | finite s m e hm => exact if_pos hf
  | _ => rfl

end Vantage.Binary64
