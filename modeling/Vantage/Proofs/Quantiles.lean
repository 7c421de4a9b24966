/-
**The cuts of a bucket are quantiles.**

Cut `i` of `n` distances in `k` parts is taken at the position `i * n / k`, which is computed with
two roundings. As long as `n * k` has at most 52 bits, what is computed lies less than a `k`-th part
away from it; so the place below is at most the position, the place above is at least the position,
and the two are next to each other or the same. A cut lies between the distances at its two places,
so about `i * n / k` distances lie below it. If the distances are different whole numbers, a cut
that is taken between two places lies strictly between their distances, so exactly the distances up
to the place below are at most the cut; and the points of a part are those between two cuts.

Main definitions:

* `Divisible` — distances whose sums are finite, and that are few enough for the positions of their
  cuts;
* `Quantiles` — cuts in order, and how many distances are below each of them;
* `IsWhole`, `DifferentWhole` — whole numbers whose means are exact, and distances that are
  different whole numbers.

Main results:

* `places_of_position` — **the places of a cut**, in spite of rounding;
* `Divisible.cutAt_between` — a cut lies between the distances at its places;
* `Divisible.quantiles` — **the cuts are quantiles**;
* `DifferentWhole.countP_part` — **each part has its share** of different whole numbers;
* `Level.cuts_are_quantiles` — what a bucket that is divided for the first time is divided into.
-/

import Vantage.Proofs.Binary64.Quotients
import Vantage.Proofs.Collating

set_option relaxedAutoImplicit false
set_option autoImplicit false

namespace Vantage

open Binary64 (HasSign value ticks value_ofNat ticks_ofNat ticks_of_value ticks_position
  ticks_mean_of_short short_of_lt lt_iff_ticks le_iff_value lt_iff_value isNaN_ofNat isNaN_of_le
  isNaN_of_lt isNaN_of_isFinite not_lt_self hasSign_div_ofNat hasSign_mul toNat_toUInt64
  mean_between le_le_trans lt_le_trans le_lt_trans)

variable {parts : Nat} {gaps : List Float} {i j : Nat}

/-! ### Places -/

/-- The places on either side of a position, in ticks. -/
theorem places_bounds (position : Float) {p n : ℕ}
    (hsign : HasSign .positive (Binary64.parts position)) (hticks : ticks position = p)
    (hp : p < n * 2 ^ 1074) (hn : n < 2 ^ 53) :
    placeBelow position * 2 ^ 1074 ≤ p ∧ p ≤ placeAbove position * 2 ^ 1074 := by
  have hone : 0 < 2 ^ 1074 := by positivity
  have hwhole : p / 2 ^ 1074 < n := (Nat.div_lt_iff_lt_mul hone).2 hp
  have hword : n ≤ 2 ^ 64 - 1 := by omega
  have hbelow : placeBelow position = p / 2 ^ 1074 := by
    rw [placeBelow, toNat_toUInt64 hsign, hticks, Int.toNat_natCast,
      min_eq_left (hwhole.le.trans hword)]
  constructor
  · rw [hbelow]
    exact Nat.div_mul_le_self _ _
  · unfold placeAbove
    split
    next =>
      rw [hbelow, Nat.succ_mul, Nat.mul_comm]
      exact (Nat.lt_mul_div_succ p hone).le
    next hnot =>
      have hsmall : placeBelow position < 2 ^ 53 := (hbelow.trans_lt hwhole).trans hn
      rw [lt_iff_ticks (isNaN_ofNat hsmall) hsign.isNaN, ticks_ofNat hsmall, hticks] at hnot
      exact Int.ofNat_le.1 (not_lt.1 hnot)

/-- **The places of a cut.** The place below is at most the exact position, and the place above is
at least the exact position. -/
theorem places_of_position {n : Nat} (hn : 0 < n) (hi : 0 < i) (hiparts : i < parts)
    (hsize : n * parts < 2 ^ 52) :
    placeBelow (positionOf n parts i) * parts ≤ i * n ∧
      i * n ≤ placeAbove (positionOf n parts i) * parts := by
  have hn52 : n < 2 ^ 52 := (Nat.le_mul_of_pos_right n (by omega)).trans_lt hsize
  have hparts52 : parts < 2 ^ 52 := (Nat.le_mul_of_pos_left parts hn).trans_lt hsize
  obtain ⟨p, hticks, hlow, hhigh⟩ := ticks_position hn hi hiparts hsize
  -- the position is below the number of distances
  have hp : p < n * 2 ^ 1074 := by
    refine Nat.lt_of_mul_lt_mul_right (a := parts) (hhigh.trans_le ?_)
    calc i * n * 2 ^ 1074 + 2 ^ 1074 ≤ i * n * 2 ^ 1074 + n * 2 ^ 1074 :=
          Nat.add_le_add_left (Nat.le_mul_of_pos_left _ hn) _
      _ = (i + 1) * (n * 2 ^ 1074) := by rw [Nat.succ_mul, Nat.mul_assoc]
      _ ≤ parts * (n * 2 ^ 1074) := Nat.mul_le_mul_right _ hiparts
      _ = n * 2 ^ 1074 * parts := Nat.mul_comm _ _
  obtain ⟨hbelow, habove⟩ := places_bounds (positionOf n parts i)
    (hasSign_mul (hasSign_div_ofNat n (show 0 < parts by omega) (by omega)) hi (by omega))
    hticks hp (by omega)
  constructor
  · refine Nat.le_of_lt_succ (Nat.lt_of_mul_lt_mul_right (a := 2 ^ 1074) ?_)
    calc placeBelow (positionOf n parts i) * parts * 2 ^ 1074
        = placeBelow (positionOf n parts i) * 2 ^ 1074 * parts := Nat.mul_right_comm _ _ _
      _ ≤ p * parts := Nat.mul_le_mul_right _ hbelow
      _ < i * n * 2 ^ 1074 + 2 ^ 1074 := hhigh
      _ = (i * n + 1) * 2 ^ 1074 := (Nat.succ_mul _ _).symm
  · refine Nat.le_of_lt_succ (Nat.lt_of_mul_lt_mul_right (a := 2 ^ 1074) ?_)
    calc i * n * 2 ^ 1074 < p * parts + 2 ^ 1074 := hlow
      _ ≤ placeAbove (positionOf n parts i) * 2 ^ 1074 * parts + 2 ^ 1074 :=
        Nat.add_le_add_right (Nat.mul_le_mul_right _ habove) _
      _ = (placeAbove (positionOf n parts i) * parts + 1) * 2 ^ 1074 := by
        rw [Nat.succ_mul, Nat.mul_right_comm]

/-! ### Ranks -/

section

variable {α : Type} {p : α → Bool} {l : List α}

/-- What fails from a place on holds of no more elements than stand before it. -/
theorem countP_le_of_drop (h : ∀ x ∈ l.drop j, p x = false) : l.countP p ≤ j := by
  have hrest : (l.drop j).countP p = 0 := List.countP_eq_zero.2 fun x hx => by simp [h x hx]
  calc l.countP p = (l.take j).countP p + (l.drop j).countP p := by
        rw [← List.countP_append, List.take_append_drop]
    _ ≤ (l.take j).length := by
        rw [hrest]
        exact List.countP_le_length
    _ ≤ j := List.length_take_le _ _

/-- What holds up to a place holds of at least as many elements as stand before it. -/
theorem le_countP_of_take (hj : j ≤ l.length) (h : ∀ x ∈ l.take j, p x = true) :
    j ≤ l.countP p := by
  calc j = (l.take j).countP p := by rw [List.countP_eq_length.2 h, List.length_take_of_le hj]
    _ ≤ l.countP p := (List.take_sublist j l).countP_le

end

/-- A distance with its place in the order. -/
theorem getElem?_ranked {k : Nat} (hk : k < gaps.length) :
    (ranked gaps)[k]? = some (atMostLast (ranked gaps).toArray k) := by
  have hlength : (ranked gaps).length = gaps.length := (ranked_perm gaps).length_eq
  have hmin : min k ((ranked gaps).length - 1) = k := by omega
  rw [atMostLast, List.size_toArray, hmin, List.getElem?_toArray,
    List.getElem?_eq_getElem (hlength ▸ hk), Option.getD_some]

/-- The distances from a place on. -/
theorem mem_drop_ranked {gap : Float} (h : gap ∈ (ranked gaps).drop j) :
    ∃ k, j ≤ k ∧ k < gaps.length ∧ gap = atMostLast (ranked gaps).toArray k := by
  obtain ⟨m, hm⟩ := List.mem_iff_getElem?.1 h
  rw [List.getElem?_drop] at hm
  have hlt : j + m < gaps.length := by
    rw [← (ranked_perm gaps).length_eq]
    exact (List.getElem?_eq_some_iff.1 hm).1
  rw [getElem?_ranked hlt] at hm
  exact ⟨j + m, Nat.le_add_right j m, hlt, (Option.some.inj hm).symm⟩

/-- The distances up to a place. -/
theorem mem_take_ranked {gap : Float} (h : gap ∈ (ranked gaps).take j) :
    ∃ k < j, gap = atMostLast (ranked gaps).toArray k := by
  obtain ⟨k, hk⟩ := List.mem_iff_getElem?.1 h
  have hkj : k < j := (List.getElem?_eq_some_iff.1 hk).1.trans_le (List.length_take_le _ _)
  rw [List.getElem?_take_of_lt hkj] at hk
  have hlt : k < gaps.length := by
    rw [← (ranked_perm gaps).length_eq]
    exact (List.getElem?_eq_some_iff.1 hk).1
  rw [getElem?_ranked hlt] at hk
  exact ⟨k, hkj, (Option.some.inj hk).symm⟩

/-- Every distance has a place. -/
theorem exists_rank {gap : Float} (h : gap ∈ gaps) :
    ∃ k < gaps.length, gap = atMostLast (ranked gaps).toArray k := by
  obtain ⟨k, -, hk, rfl⟩ := mem_drop_ranked (j := 0) ((ranked_perm gaps).mem_iff.2 h)
  exact ⟨k, hk, rfl⟩

/-- Every place has a distance. -/
theorem atMostLast_mem_gaps (hne : gaps ≠ []) (k : Nat) :
    atMostLast (ranked gaps).toArray k ∈ gaps := by
  have hlength : (ranked gaps).length = gaps.length := (ranked_perm gaps).length_eq
  have hpos : 0 < gaps.length := List.length_pos_iff.2 hne
  have hlast : min k (gaps.length - 1) < gaps.length := by omega
  have hsame : atMostLast (ranked gaps).toArray (min k (gaps.length - 1)) =
      atMostLast (ranked gaps).toArray k := by
    rw [atMostLast, atMostLast, List.size_toArray, hlength, min_assoc, min_self]
  have hget := getElem?_ranked hlast
  rw [hsame] at hget
  exact (ranked_perm gaps).mem_iff.1 (List.mem_of_getElem? hget)

section

variable {t : Float} {k : Nat}

/-- No more distances are below what the distance at a place is not below than stand before it. -/
theorem countP_lt_le (hgaps : ∀ gap ∈ gaps, gap.isNaN = false)
    (h : t ≤ atMostLast (ranked gaps).toArray k) : gaps.countP (· < t) ≤ k := by
  rw [← (ranked_perm gaps).countP_eq]
  refine countP_le_of_drop fun gap hgap => decide_eq_false fun hlt => ?_
  obtain ⟨m, hm, -, rfl⟩ := mem_drop_ranked hgap
  exact not_lt_self _ (lt_le_trans hlt (le_le_trans h (atMostLast_mono hgaps hm)))

/-- What is not below the distance at a place is not below the distances before it. -/
theorem lt_countP_le (hgaps : ∀ gap ∈ gaps, gap.isNaN = false) (hk : k < gaps.length)
    (h : atMostLast (ranked gaps).toArray k ≤ t) : k < gaps.countP (· ≤ t) := by
  rw [← (ranked_perm gaps).countP_eq]
  refine le_countP_of_take ((ranked_perm gaps).length_eq ▸ hk) fun gap hgap => decide_eq_true ?_
  obtain ⟨m, hm, rfl⟩ := mem_take_ranked hgap
  exact le_le_trans (atMostLast_mono hgaps (Nat.le_of_lt_succ hm)) h

/-- What is below the distance at a place is below the distances behind it. -/
theorem countP_le_le (hgaps : ∀ gap ∈ gaps, gap.isNaN = false)
    (h : k < gaps.length → t < atMostLast (ranked gaps).toArray k) :
    gaps.countP (· ≤ t) ≤ k := by
  rw [← (ranked_perm gaps).countP_eq]
  refine countP_le_of_drop fun gap hgap => decide_eq_false fun hle => ?_
  obtain ⟨m, hm, hlt, rfl⟩ := mem_drop_ranked hgap
  exact not_lt_self _ (lt_le_trans (le_lt_trans hle (h (hm.trans_lt hlt)))
    (atMostLast_mono hgaps hm))

end

/-! ### Cuts between distances -/

/-- Distances that are to be divided into two or more parts: their sums are finite, and their number
times that of the parts has at most 52 bits. -/
structure Divisible (parts : Nat) (gaps : List Float) : Prop where
  two_le : 2 ≤ parts
  nonempty : gaps ≠ []
  size : gaps.length * parts < 2 ^ 52
  isFinite : ∀ x ∈ gaps, x.isFinite = true
  add : ∀ x ∈ gaps, ∀ y ∈ gaps, (x + y).isFinite = true

namespace Divisible

theorem isNumber (h : Divisible parts gaps) : ∀ gap ∈ gaps, gap.isNaN = false := fun gap hgap =>
  isNaN_of_isFinite (h.isFinite gap hgap)

/-- The place below a cut is the place of a distance. -/
theorem places (h : Divisible parts gaps) (hi : 0 < i) (hiparts : i < parts) :
    placeBelow (positionOf gaps.length parts i) < gaps.length ∧
      placeBelow (positionOf gaps.length parts i) * parts ≤ i * gaps.length ∧
      i * gaps.length ≤ placeAbove (positionOf gaps.length parts i) * parts := by
  have hpos : 0 < gaps.length := List.length_pos_iff.2 h.nonempty
  obtain ⟨hbelow, habove⟩ := places_of_position hpos hi hiparts h.size
  refine ⟨Nat.lt_of_mul_lt_mul_right (a := parts) (hbelow.trans_lt ?_), hbelow, habove⟩
  rw [Nat.mul_comm]
  exact Nat.mul_lt_mul_of_pos_left hiparts hpos

/-- **A cut lies between the distances at its places.** -/
theorem cutAt_between (h : Divisible parts gaps) (i : Nat) :
    atMostLast (ranked gaps).toArray (placeBelow (positionOf gaps.length parts i)) ≤
        cutAt (ranked gaps).toArray parts i ∧
      cutAt (ranked gaps).toArray parts i ≤
        atMostLast (ranked gaps).toArray (placeAbove (positionOf gaps.length parts i)) := by
  have hbelow := atMostLast_mem_gaps h.nonempty (placeBelow (positionOf gaps.length parts i))
  have habove := atMostLast_mem_gaps h.nonempty (placeAbove (positionOf gaps.length parts i))
  have hle := atMostLast_mono h.isNumber (placeAbove_bounds (positionOf gaps.length parts i)).1
  rw [cutAt_ranked]
  exact mean_between hle (h.isFinite _ hbelow) (h.isFinite _ habove)
    (h.add _ hbelow _ hbelow) (h.add _ hbelow _ habove) (h.add _ habove _ habove)

/-- The distances lie between the first and the last of them, and so do the cuts. -/
theorem atMostLast_between (h : Divisible parts gaps) (k : Nat) :
    atMostLast (ranked gaps).toArray 0 ≤ atMostLast (ranked gaps).toArray k ∧
      atMostLast (ranked gaps).toArray k ≤ atMostLast (ranked gaps).toArray (gaps.length - 1) := by
  refine ⟨atMostLast_mono h.isNumber (Nat.zero_le k), ?_⟩
  obtain ⟨m, hm, heq⟩ := exists_rank (atMostLast_mem_gaps h.nonempty k)
  rw [heq]
  exact atMostLast_mono h.isNumber (Nat.le_pred_of_lt hm)

end Divisible

/-! ### Quantiles -/

/-- Cuts that are in order, lie between the smallest and the largest distance, and divide the
distances into parts of about the same number. -/
structure Quantiles (parts : Nat) (gaps cuts : List Float) : Prop where
  length : cuts.length = parts - 1
  ordered : cuts.Pairwise (· ≤ ·)
  between : ∃ least ∈ gaps, ∃ greatest ∈ gaps,
    (∀ gap ∈ gaps, least ≤ gap ∧ gap ≤ greatest) ∧ ∀ cut ∈ cuts, least ≤ cut ∧ cut ≤ greatest
  /-- At most `⌊i * n / parts⌋ + 1` of `n` distances are below cut `i`, counted from one. -/
  below : ∀ (i : Nat) (cut : Float), cuts[i]? = some cut →
    gaps.countP (· < cut) ≤ ⌊(i + 1 : ℚ) * gaps.length / parts⌋₊ + 1
  /-- At least `⌈i * n / parts⌉` distances are at most cut `i`. -/
  upTo : ∀ (i : Nat) (cut : Float), cuts[i]? = some cut →
    ⌈(i + 1 : ℚ) * gaps.length / parts⌉₊ ≤ gaps.countP (· ≤ cut)

theorem getElem?_cuts {cut : Float} (h : (cuts parts gaps)[i]? = some cut) :
    i + 1 < parts ∧ cut = cutAt (ranked gaps).toArray parts (i + 1) := by
  obtain ⟨hi, rfl⟩ := List.getElem?_eq_some_iff.1 h
  rw [length_cuts] at hi
  exact ⟨by omega, by simp [cuts]⟩

namespace Divisible

/-- **The cuts of a bucket are quantiles.** -/
theorem quantiles (h : Divisible parts gaps) : Quantiles parts gaps (cuts parts gaps) where
  length := length_cuts parts gaps
  ordered := by
    have hparts : parts < 2 ^ 53 :=
      ((Nat.le_mul_of_pos_left parts (List.length_pos_iff.2 h.nonempty)).trans_lt h.size).trans
        (by norm_num)
    refine (cuts_inOrder hparts h.isNumber).imp_of_mem fun {x y} hx hy horder => ?_
    obtain ⟨i, -, rfl⟩ := List.mem_map.1 hx
    obtain ⟨j, -, rfl⟩ := List.mem_map.1 hy
    exact horder (isNaN_of_le (h.cutAt_between (i + 1)).1).2
      (isNaN_of_le (h.cutAt_between (j + 1)).1).2
  between := by
    refine ⟨_, atMostLast_mem_gaps h.nonempty 0, _,
      atMostLast_mem_gaps h.nonempty (gaps.length - 1), fun gap hgap => ?_, fun cut hcut => ?_⟩
    · obtain ⟨k, -, rfl⟩ := exists_rank hgap
      exact h.atMostLast_between k
    · obtain ⟨i, -, rfl⟩ := List.mem_map.1 hcut
      obtain ⟨hlow, hhigh⟩ := h.cutAt_between (i + 1)
      exact ⟨le_le_trans (h.atMostLast_between _).1 hlow,
        le_le_trans hhigh (h.atMostLast_between _).2⟩
  below i cut hcut := by
    obtain ⟨hi, rfl⟩ := getElem?_cuts hcut
    obtain ⟨-, hplace, -⟩ := h.places (i := i + 1) (Nat.succ_pos i) hi
    have hcount := countP_lt_le h.isNumber (h.cutAt_between (i + 1)).2
    have hnext := (placeAbove_bounds (positionOf gaps.length parts (i + 1))).2
    have hfloor : placeBelow (positionOf gaps.length parts (i + 1)) ≤
        ⌊(i + 1 : ℚ) * gaps.length / parts⌋₊ := by
      refine Nat.le_floor ((le_div_iff₀ (by exact_mod_cast (show 0 < parts by omega))).2 ?_)
      exact_mod_cast hplace
    omega
  upTo i cut hcut := by
    obtain ⟨hi, rfl⟩ := getElem?_cuts hcut
    obtain ⟨hlt, -, hplace⟩ := h.places (i := i + 1) (Nat.succ_pos i) hi
    have hcount := lt_countP_le h.isNumber hlt (h.cutAt_between (i + 1)).1
    have hnext := (placeAbove_bounds (positionOf gaps.length parts (i + 1))).2
    have hceil : ⌈(i + 1 : ℚ) * gaps.length / parts⌉₊ ≤
        placeAbove (positionOf gaps.length parts (i + 1)) := by
      refine Nat.ceil_le.2 ((div_le_iff₀ (by exact_mod_cast (show 0 < parts by omega))).2 ?_)
      exact_mod_cast hplace
    omega

end Divisible

/-! ### Different whole numbers -/

/-- A number whose value is a natural number of at most 52 bits. -/
def IsWhole (x : Float) : Prop := ∃ k : ℕ, k < 2 ^ 52 ∧ value x = (k : ℝ)

/-- The mean of whole numbers is exact. -/
theorem IsWhole.ticks_mean {x y : Float} (hx : IsWhole x) (hy : IsWhole y)
    (fx : x.isFinite = true) (fy : y.isFinite = true) (fs : (x + y).isFinite = true) :
    ticks ((x + y) / 2) * 2 = ticks x + ticks y := by
  obtain ⟨k, hk, hvx⟩ := hx
  obtain ⟨m, hm, hvy⟩ := hy
  have htx := ticks_of_value (isNaN_of_isFinite fx) (hk.trans (by norm_num)) hvx
  have hty := ticks_of_value (isNaN_of_isFinite fy) (hm.trans (by norm_num)) hvy
  have hhalf : (2 : ℕ) ^ 1074 = 2 ^ 1073 * 2 := by rw [← pow_succ]
  have hsum : ticks x + ticks y = (((k + m) * 2 ^ 1073 : ℕ) : ℤ) * 2 := by
    rw [htx, hty, hhalf]
    generalize (2 : ℕ) ^ 1073 = half
    push_cast
    ring
  have hshort : Binary64.Short ((((k + m) * 2 ^ 1073 : ℕ) : ℤ) * 2).natAbs := by
    have hshort := ((short_of_lt (show k + m < 2 ^ 53 by omega)).mul_two_pow 1073).mul_two_pow 1
    rw [pow_one] at hshort
    rw [Int.natAbs_mul, Int.natAbs_natCast]
    exact hshort
  rw [ticks_mean_of_short fx fy fs hshort hsum, hsum]

/-- Distances that are different whole numbers. -/
structure DifferentWhole (gaps : List Float) : Prop where
  isWhole : ∀ gap ∈ gaps, IsWhole gap
  different : gaps.Pairwise fun x y => value x ≠ value y

/-- Different natural numbers of at most 52 bits. -/
theorem differentWhole_ofNat {ns : List ℕ} (hns : ∀ n ∈ ns, n < 2 ^ 52) (hne : ns.Nodup) :
    DifferentWhole (ns.map Float.ofNat) where
  isWhole := List.forall_mem_map.2 fun n hn =>
    ⟨n, hns n hn, value_ofNat ((hns n hn).trans (by norm_num))⟩
  different := by
    refine List.pairwise_map.2 (hne.imp_of_mem fun {n m} hn hm hnm heq => hnm ?_)
    rw [value_ofNat ((hns n hn).trans (by norm_num)),
      value_ofNat ((hns m hm).trans (by norm_num))] at heq
    exact_mod_cast heq

namespace DifferentWhole

variable {k m : Nat}

/-- Of different distances, those further on are larger. -/
theorem atMostLast_lt (h : DifferentWhole gaps) (hgaps : ∀ gap ∈ gaps, gap.isNaN = false)
    (hkm : k < m) (hm : m < gaps.length) :
    atMostLast (ranked gaps).toArray k < atMostLast (ranked gaps).toArray m := by
  have hdifferent := ((ranked_perm gaps).pairwise_iff fun hxy => Ne.symm hxy).2 h.different
  obtain ⟨hk', hgetk⟩ := List.getElem?_eq_some_iff.1 (getElem?_ranked (hkm.trans hm))
  obtain ⟨hm', hgetm⟩ := List.getElem?_eq_some_iff.1 (getElem?_ranked hm)
  have hne := List.pairwise_iff_getElem.1 hdifferent k m hk' hm' hkm
  have hle := atMostLast_mono hgaps hkm.le
  rw [hgetk, hgetm] at hne
  obtain ⟨hnumk, hnumm⟩ := isNaN_of_le hle
  exact (lt_iff_value hnumk hnumm).2 (lt_of_le_of_ne ((le_iff_value hnumk hnumm).1 hle) hne)

/-- **The distances up to the place below a cut, and no others, are at most the cut.** -/
theorem countP_le_cutAt (hwhole : DifferentWhole gaps) (h : Divisible parts gaps) (hi : 0 < i)
    (hiparts : i < parts) : gaps.countP (· ≤ cutAt (ranked gaps).toArray parts i) =
      placeBelow (positionOf gaps.length parts i) + 1 := by
  obtain ⟨hplace, -, -⟩ := h.places hi hiparts
  obtain ⟨hlow, hhigh⟩ := h.cutAt_between i
  refine le_antisymm (countP_le_le h.isNumber fun hnext => ?_)
    (lt_countP_le h.isNumber hplace hlow)
  have hlt := hwhole.atMostLast_lt h.isNumber (Nat.lt_add_one _) hnext
  obtain ⟨hle, hle'⟩ := placeAbove_bounds (positionOf gaps.length parts i)
  rcases hle.eq_or_lt with heq | hgt
  · rw [← heq] at hhigh
    exact le_lt_trans hhigh hlt
  · -- the mean of two different numbers that is not rounded is less than the larger one
    have habove := le_antisymm hle' hgt
    have hx := atMostLast_mem_gaps h.nonempty (placeBelow (positionOf gaps.length parts i))
    have hy := atMostLast_mem_gaps h.nonempty (placeBelow (positionOf gaps.length parts i) + 1)
    have hmean := (hwhole.isWhole _ hx).ticks_mean (hwhole.isWhole _ hy) (h.isFinite _ hx)
      (h.isFinite _ hy) (h.add _ hx _ hy)
    have hnum := (isNaN_of_le hlow).2
    rw [cutAt_ranked, habove] at hnum ⊢
    rw [lt_iff_ticks (h.isNumber _ hx) (h.isNumber _ hy)] at hlt
    rw [lt_iff_ticks hnum (h.isNumber _ hy)]
    omega

end DifferentWhole

/-! ### Parts -/

/-- How many distances belong to a part before part `j`. -/
def countBefore (cuts gaps : List Float) (j : Nat) : Nat :=
  gaps.countP fun gap => (part? cuts gap).any (· < j)

theorem countBefore_zero (cuts gaps : List Float) : countBefore cuts gaps 0 = 0 := by
  simp [countBefore]

/-- The distances of a part come on top of those of the parts before it. -/
theorem countBefore_succ (cuts gaps : List Float) (j : Nat) : countBefore cuts gaps (j + 1) =
    countBefore cuts gaps j + gaps.countP fun gap => part? cuts gap = some j := by
  unfold countBefore
  induction gaps with
  | nil => rfl
  | cons gap gaps ih =>
      rw [List.countP_cons, List.countP_cons, List.countP_cons, ih]
      cases part? cuts gap with
      | none => simp
      | some part =>
          simp only [Option.any_some, Option.some.injEq, decide_eq_true_eq]
          split <;> split <;> split <;> omega

/-- A distance belongs to a part up to a cut if it is at most that cut. -/
theorem any_part?_lt {cuts : List Float} {gap cut : Float} (hordered : cuts.Pairwise (· ≤ ·))
    (hcuts : ∀ cut ∈ cuts, cut.isNaN = false) (hgap : gap.isNaN = false)
    (hcut : cuts[i]? = some cut) : (part? cuts gap).any (· < i + 1) = decide (gap ≤ cut) := by
  obtain ⟨hi, rfl⟩ := List.getElem?_eq_some_iff.1 hcut
  obtain ⟨part, hpart⟩ := Option.isSome_iff_exists.1
    (part?_isSome (List.ne_nil_of_mem (List.mem_of_getElem? hcut)) hcuts hgap)
  obtain ⟨hwithin, hbehind, -⟩ := part?_bounds hpart
  rw [hpart, Option.any_some, decide_eq_decide]
  constructor
  · intro hle
    have hpart' : part < cuts.length := by omega
    have hgap := hwithin _ (List.getElem?_eq_getElem hpart')
    rcases (Nat.le_of_lt_succ hle).eq_or_lt with rfl | hlt
    · exact hgap
    · exact le_le_trans hgap (List.pairwise_iff_getElem.1 hordered part i hpart' hi hlt)
  · intro hle
    by_contra hnot
    have hlt := hbehind i (by omega) _ hcut (hcuts _ (List.mem_of_getElem? hcut))
    exact not_lt_self _ (lt_le_trans hlt hle)

theorem Quantiles.isNumber {cuts : List Float} (h : Quantiles parts gaps cuts) :
    ∀ cut ∈ cuts, cut.isNaN = false := by
  obtain ⟨least, -, greatest, -, -, hbetween⟩ := h.between
  exact fun cut hcut => (isNaN_of_le (hbetween cut hcut).1).2

/-- Every distance belongs to a part. -/
theorem Divisible.exists_part? (h : Divisible parts gaps) {gap : Float} (hgap : gap ∈ gaps) :
    ∃ part < parts, part? (cuts parts gaps) gap = some part := by
  have hparts := h.two_le
  have hcuts : cuts parts gaps ≠ [] := by
    rw [← List.length_pos_iff, length_cuts]
    omega
  obtain ⟨part, hpart⟩ := Option.isSome_iff_exists.1
    (part?_isSome hcuts h.quantiles.isNumber (h.isNumber gap hgap))
  have hlt := part?_lt hpart
  rw [length_cuts] at hlt
  exact ⟨part, by omega, hpart⟩

theorem Divisible.countBefore_parts (h : Divisible parts gaps) :
    countBefore (cuts parts gaps) gaps parts = gaps.length := by
  refine List.countP_eq_length.2 fun gap hgap => ?_
  obtain ⟨part, hlt, hpart⟩ := h.exists_part? hgap
  rw [hpart, Option.any_some, decide_eq_true hlt]

namespace DifferentWhole

theorem countBefore_cut (hwhole : DifferentWhole gaps) (h : Divisible parts gaps)
    (hi : i + 1 < parts) : countBefore (cuts parts gaps) gaps (i + 1) =
      placeBelow (positionOf gaps.length parts (i + 1)) + 1 := by
  have hlength : i < (cuts parts gaps).length := by
    rw [length_cuts]
    omega
  have hget := List.getElem?_eq_getElem hlength
  rw [(getElem?_cuts hget).2] at hget
  rw [← hwhole.countP_le_cutAt h (Nat.succ_pos i) hi]
  refine List.countP_congr fun gap hgap => ?_
  rw [any_part?_lt h.quantiles.ordered h.quantiles.isNumber (h.isNumber gap hgap) hget]

/-- About `i` shares of the distances belong to the first `i` parts. -/
theorem countBefore_bounds (hwhole : DifferentWhole gaps) (h : Divisible parts gaps)
    (hi : i ≤ parts) : i * gaps.length ≤ countBefore (cuts parts gaps) gaps i * parts ∧
      countBefore (cuts parts gaps) gaps i * parts ≤ i * gaps.length + parts := by
  rcases hi.eq_or_lt with rfl | hlt
  · rw [h.countBefore_parts, Nat.mul_comm]
    omega
  · cases i with
    | zero =>
        rw [countBefore_zero]
        omega
    | succ i =>
        obtain ⟨-, hbelow, habove⟩ := h.places (Nat.succ_pos i) hlt
        have hnext := (placeAbove_bounds (positionOf gaps.length parts (i + 1))).2
        rw [hwhole.countBefore_cut h hlt]
        refine ⟨habove.trans (Nat.mul_le_mul_right _ hnext), ?_⟩
        rw [Nat.succ_mul (placeBelow _)]
        exact Nat.add_le_add_right hbelow _

/-- **Each part has its share of the distances**, give or take one. -/
theorem countP_part (hwhole : DifferentWhole gaps) (h : Divisible parts gaps) (hj : j < parts) :
    ⌈(gaps.length : ℚ) / parts⌉₊ - 1 ≤
        (gaps.countP fun gap => part? (cuts parts gaps) gap = some j) ∧
      (gaps.countP fun gap => part? (cuts parts gaps) gap = some j) ≤
        ⌊(gaps.length : ℚ) / parts⌋₊ + 1 := by
  obtain ⟨hlow, hhigh⟩ := hwhole.countBefore_bounds h hj.le
  obtain ⟨hlow', hhigh'⟩ := hwhole.countBefore_bounds (i := j + 1) h hj
  rw [countBefore_succ] at hlow' hhigh'
  generalize (gaps.countP fun gap => part? (cuts parts gaps) gap = some j) = size at *
  rw [Nat.add_mul _ size, Nat.succ_mul] at hlow' hhigh'
  have hpos : (0 : ℚ) < parts := by exact_mod_cast (show 0 < parts by omega)
  constructor
  · have hceil : ⌈(gaps.length : ℚ) / parts⌉₊ ≤ size + 1 := by
      refine Nat.ceil_le.2 ((div_le_iff₀ hpos).2 ?_)
      have hshare : gaps.length ≤ (size + 1) * parts := by
        rw [Nat.succ_mul]
        omega
      exact_mod_cast hshare
    omega
  · have hfloor : size - 1 ≤ ⌊(gaps.length : ℚ) / parts⌋₊ := by
      refine Nat.le_floor ((le_div_iff₀ hpos).2 ?_)
      have hshare : (size - 1) * parts ≤ gaps.length := by
        rw [Nat.sub_mul]
        omega
      exact_mod_cast hshare
    omega

end DifferentWhole

/-! ### Dividing a bucket -/

namespace Level

variable {level : Level} {bucket : Nat}

theorem cutsOf_first (hfirst : Keyed.get? bucket level.frozen = none) (parts : Nat)
    (gaps : List Float) : level.cutsOf parts bucket gaps = cuts parts gaps := by
  rw [cutsOf, hfirst, Option.getD_none]

/-- A bucket is divided by the parts to which its distances belong. -/
theorem split_first {d : Metric} {vantage : UInt64} {points : List Held}
    (hfirst : Keyed.get? bucket level.frozen = none) (number : Nat)
    (h : Divisible parts (points.map fun p => d vantage p.value)) :
    ∃ level' out, level.split d parts vantage number bucket points = .ok (level', out) ∧
      ∀ j < parts, (Keyed.under (bucket * parts + j) out).length =
        (points.map fun p => d vantage p.value).countP fun gap =>
          part? (cuts parts (points.map fun p => d vantage p.value)) gap = some j := by
  have hcuts : level.cutsFor d parts vantage bucket points =
      cuts parts (points.map fun p => d vantage p.value) := cutsOf_first hfirst _ _
  have hlength : (level.cutsFor d parts vantage bucket points).length < parts := by
    have hparts := h.two_le
    rw [hcuts, length_cuts]
    omega
  have hnone : level.strays d parts vantage bucket points = 0 := by
    refine List.countP_eq_zero.2 fun p hp => ?_
    obtain ⟨part, -, hpart⟩ :=
      h.exists_part? (List.mem_map_of_mem (f := fun p => d vantage p.value) hp)
    rw [hcuts, ← isSome_part?, hpart]
    exact Bool.false_ne_true
  rcases split_cases d parts vantage number level bucket points with
    ⟨-, ⟨level', out⟩, hok⟩ | ⟨hpos, -⟩
  · refine ⟨level', out, hok, fun j hj => ?_⟩
    rw [under_split hlength hok, Nat.mul_comm bucket, Nat.mul_add_div (by omega),
      Nat.div_eq_of_lt hj, Nat.add_zero, if_pos rfl, Nat.mul_add_mod, Nat.mod_eq_of_lt hj, hcuts,
      ← List.countP_eq_length_filter, List.countP_map]
    rfl
  · omega

/-- **The cuts of a bucket that is divided for the first time are quantiles of its distances.** They
are in order, and lie between the smallest and the largest distance; at most `⌊i * n / parts⌋ + 1`
of `n` distances are below cut `i`, and at least `⌈i * n / parts⌉` are not above it. If the
distances are different whole numbers, each bucket that the points go to receives its share of them,
give or take one. -/
theorem cuts_are_quantiles (hfirst : Keyed.get? bucket level.frozen = none)
    (h : Divisible parts gaps) :
    Quantiles parts gaps (level.cutsOf parts bucket gaps) ∧
      (DifferentWhole gaps → ∀ (d : Metric) (vantage : UInt64) (number : Nat) (points : List Held),
        (points.map fun p => d vantage p.value) = gaps →
          ∃ level' out, level.split d parts vantage number bucket points = .ok (level', out) ∧
            ∀ j < parts,
              ⌈(gaps.length : ℚ) / parts⌉₊ - 1 ≤
                  (Keyed.under (bucket * parts + j) out).length ∧
                (Keyed.under (bucket * parts + j) out).length ≤
                  ⌊(gaps.length : ℚ) / parts⌋₊ + 1) := by
  rw [cutsOf_first hfirst]
  refine ⟨h.quantiles, fun hwhole d vantage number points hpoints => ?_⟩
  subst hpoints
  obtain ⟨level', out, hok, hcount⟩ := split_first hfirst number h
  refine ⟨level', out, hok, fun j hj => ?_⟩
  rw [hcount j hj]
  exact hwhole.countP_part h hj

/-- Five points at the Hamming distances 4, 1, 3, 2 and 7 from the vantage point, in three parts. -/
theorem cuts_are_quantiles_five :
    Keyed.get? 0 (Level.frozen { buckets := 1 }) = none ∧
      Divisible 3 ([4, 1, 3, 2, 7].map Float.ofNat) ∧
      Quantiles 3 ([4, 1, 3, 2, 7].map Float.ofNat)
        (cutsOf { buckets := 1 } 3 0 ([4, 1, 3, 2, 7].map Float.ofNat)) ∧
      ∃ level' out, split hamming 3 0 0 { buckets := 1 } 0
          ([0xF, 1, 7, 3, 0x7F].map fun value => ⟨0, 0, value, true⟩) = .ok (level', out) ∧
        ∀ j < 3, 1 ≤ (Keyed.under j out).length ∧ (Keyed.under j out).length ≤ 2 := by
  have hgaps : Divisible 3 ([4, 1, 3, 2, 7].map Float.ofNat) :=
    ⟨by decide, by decide, by decide, by decide +kernel, by decide +kernel⟩
  have hwhole : DifferentWhole ([4, 1, 3, 2, 7].map Float.ofNat) :=
    differentWhole_ofNat (by decide) (by decide)
  obtain ⟨hquantiles, hparts⟩ := @cuts_are_quantiles _ _ { buckets := 1 } 0 rfl hgaps
  refine ⟨rfl, hgaps, hquantiles, ?_⟩
  obtain ⟨level', out, hok, hsizes⟩ := hparts hwhole hamming 0 0
    ([0xF, 1, 7, 3, 0x7F].map fun value => ⟨0, 0, value, true⟩)
    (congrArg (List.map Float.ofNat)
      (show [0xF, 1, 7, 3, 0x7F].map (fun value => popCount 64 (0 ^^^ value)) = _ by decide))
  refine ⟨level', out, hok, fun j hj => ?_⟩
  -- a part has `5 / 3` of a point on average
  have hshare := hsizes j hj
  norm_num at hshare
  exact hshare

end Level

end Vantage
