/-
**A wider radius finds more, and costs more.**

Every test in a search compares a distance with a sum or a difference that involves the radius. With
a wider radius each test lets through what it let through before, also in rounded arithmetic and
where infinities meet, if only no distance is negative. So the walk goes on to more nodes, fewer
stored points are passed over, and what was found is found again and stands in the same order. With
a lawful metric nothing is missed, and what the narrower search finds is how the wider one begins.

Main results:

* `admits_mono`, `excludes_mono` — **a wider radius passes over less**;
* `Tree.opened_mono`, `Tree.probed_mono`, `Tree.discovered_mono` — what is visited, measured and
  discovered with a wider radius;
* `Tree.shares_eq_filter` — what lies within the narrower radius;
* `Tree.Reachable.search_mono` — **searches are monotone in the radius**.
-/

import Vantage.Proofs.SearchCost
import Vantage.Proofs.Binary64.SumOrder

set_option relaxedAutoImplicit false
set_option autoImplicit false

namespace Vantage

open Binary64 (value isNaN_of_le le_le_trans le_add_of_le add_lt_of_le lt_sub_of_le sub_lt_of_le)

variable {d : Metric} {target : UInt64} {r r' : Float}

/-! ### The tests of a search -/

/-- A part that may hold something within a radius may hold something within a wider one. For a
distance of negative infinity this fails: a cut there has a sum with a finite radius, and none with
an infinite one. -/
theorem admits_mono (hr : r ≤ r') {gap : Float} (hgap : gap.isNaN = false → 0 ≤ value gap)
    {cuts : List Float} {j : Nat} (h : admits cuts r gap j = true) :
    admits cuts r' gap j = true := by
  unfold admits at h ⊢
  cases hcut : cuts[j]? with
  | some cut =>
      rw [hcut] at h
      have hle : gap ≤ cut + r := of_decide_eq_true h
      have hgap₀ := hgap (isNaN_of_le hle).1
      exact decide_eq_true (le_add_of_le hr hle (EReal.bot_lt_zero.trans_le hgap₀).ne')
  | none =>
      rw [hcut] at h
      obtain ⟨last, hlast, hlt⟩ := (Option.any_eq_true _ _).1 h
      exact (Option.any_eq_true _ _).2
        ⟨last, hlast, decide_eq_true (sub_lt_of_le hr (of_decide_eq_true hlt))⟩

/-- A stored point that a wider radius excludes is excluded. -/
theorem excludes_mono (hr : r ≤ r') {targetGaps storedGaps : List Float}
    (h : excludes r' targetGaps storedGaps = true) : excludes r targetGaps storedGaps = true := by
  rw [excludes, List.any_eq_true] at h ⊢
  obtain ⟨⟨p, q⟩, hmem, h⟩ := h
  refine ⟨(p, q), hmem, ?_⟩
  simp only [Bool.or_eq_true, decide_eq_true_eq] at h ⊢
  exact h.imp (lt_sub_of_le hr) (add_lt_of_le hr)

/-- A wider radius reaches the children that a narrower one reaches. -/
theorem Branch.reachesFrom_mono (hr : r ≤ r') {parts index : Nat} {levels : List (Level × Float)}
    (hgaps : ∀ x ∈ levels, x.2.isNaN = false → 0 ≤ value x.2)
    (h : reachesFrom parts r index levels = true) : reachesFrom parts r' index levels = true := by
  induction levels with
  | nil => rfl
  | cons x rest ih =>
      obtain ⟨hx, hrest⟩ := List.forall_mem_cons.1 hgaps
      rw [reachesFrom, Bool.and_eq_true, Option.any_eq_true] at h ⊢
      obtain ⟨⟨cuts, hcuts, hadmits⟩, hbelow⟩ := h
      exact ⟨⟨cuts, hcuts, admits_mono hr hx hadmits⟩, ih hrest hbelow⟩

namespace Node

variable {κ : Type} {node : Node Held κ}

/-- A search with a wider radius goes on to more children. -/
theorem opens_mono (hd : d.Unsigned) (hr : r ≤ r') {parts index : Nat}
    (h : node.opens parts d target r index = true) :
    node.opens parts d target r' index = true := by
  cases node with
  | leaf l => rfl
  | branch b =>
      refine Branch.reachesFrom_mono hr (fun x hx => ?_) h
      obtain ⟨v, -, hv⟩ := List.mem_map.1 (List.of_mem_zip hx).2
      exact hv ▸ hd v.value target

/-- A visit with a wider radius measures more points. -/
theorem probed_mono (hr : r ≤ r') (node : Node Held κ) :
    (node.probed d target r).Sublist (node.probed d target r') := by
  cases node with
  | leaf l =>
      refine ((List.monotone_filter_right l.stored fun s hs => ?_).map _).append_left _
      simp only [Bool.and_eq_true, Bool.not_eq_true'] at hs ⊢
      refine ⟨hs.1, Bool.eq_false_iff.2 fun hexcludes => ?_⟩
      exact Bool.eq_false_iff.1 hs.2 (excludes_mono hr hexcludes)
  | branch b => exact .refl _

end Node

/-! ### Hits within a radius -/

/-- The hits within the narrower radius are some of those within the wider one. -/
theorem filter_hits (hr : r ≤ r') (points : List Held) :
    (points.filterMap (Held.hit? d target r')).filter (fun hit => hit.distance ≤ r) =
      points.filterMap (Held.hit? d target r) := by
  rw [List.filter_filterMap]
  refine List.filterMap_congr fun p _ => ?_
  unfold Held.hit?
  by_cases hnear : d p.value target ≤ r
  · simp [hnear, le_le_trans hnear hr]
  · by_cases hwide : d p.value target ≤ r' <;> simp [hnear, hwide]

namespace Tree

variable {shape : Shape} {metric : Metric} {t : Tree}

/-! ### What is visited, measured and discovered -/

/-- A search with a wider radius visits more nodes. -/
theorem opened_mono (hd : t.metric.Unsigned) (hr : r ≤ r') :
    (t.opened target r).Sublist (t.opened target r') :=
  Subtree.walk_mono (fun _ _ h => Node.opens_mono hd hr h) (.refl _)

/-- A search with a wider radius measures more points. -/
theorem probed_mono (hd : t.metric.Unsigned) (hr : r ≤ r') :
    (t.probed target r).Sublist (t.probed target r') :=
  (List.Sublist.flatMap_right _ fun s _ => (s.looked t.points).probed_mono hr).trans
    ((opened_mono hd hr).flatMap _)

/-- A search with a wider radius discovers more hits. -/
theorem discovered_mono (hd : t.metric.Unsigned) (hr : r ≤ r') :
    (t.discovered target r).Sublist (t.discovered target r') := by
  rw [discovered, ← filter_hits hr]
  exact List.filter_sublist.trans (((probed_mono hd hr).filter _).filterMap _)

/-- What lies within the narrower radius is what the wider one leaves of it. -/
theorem shares_eq_filter (t : Tree) (target : UInt64) (hr : r ≤ r') :
    t.shares target r = (t.shares target r').filter fun hit => hit.distance ≤ r := by
  rw [shares, shares, List.filter_flatMap]
  exact List.flatMap_congr fun s _ => (filter_hits hr _).symm

/-- With a lawful metric what is discovered is, in order, what lies within the radius. -/
theorem Sound.nearestFirst_discovered (h : t.Sound) (hd : t.metric.Lawful) (target : UInt64)
    (radius : Float) :
    nearestFirst (t.discovered target radius) = nearestFirst (t.shares target radius) := by
  obtain ⟨found, hfound, hhits⟩ := h.search_eq_shares hd target radius
  rw [h.search_eq_discovered] at hfound
  rw [← hhits, ← Except.ok.inj hfound]

/-- **Searches are monotone in the radius.**  If no distance is negative, a search with a wider
radius finds what the narrower one finds, in the same order, visits at least as many nodes, and
measures at least as many distances. With a lawful metric the narrower search finds how the wider
one begins: its hits within the narrower radius. -/
theorem Reachable.search_mono (h : Reachable shape metric t) (hd : metric.Unsigned)
    (target : UInt64) (hr : r ≤ r') :
    ∃ near far, t.search target r = .ok near ∧ t.search target r' = .ok far ∧
      near.hits.Sublist far.hits ∧ near.visited ≤ far.visited ∧ near.measured ≤ far.measured ∧
      (metric.Lawful → near.hits <+: far.hits ∧
        near.hits = far.hits.filter fun hit => hit.distance ≤ r) := by
  obtain ⟨hsound, -, rfl⟩ := h.sound
  have hnear := hsound.search_eq_discovered target r
  have hfar := hsound.search_eq_discovered target r'
  refine ⟨_, _, hnear, hfar, ?_, (opened_mono hd hr).length_le, (probed_mono hd hr).length_le,
    fun hlawful => ?_⟩
  · exact nearestFirst_sublist (discovered_mono hd hr) (t.numbers_discovered target r')
  · -- nothing is missed, so the hits are those that lie within the radii
    rw [hsound.nearestFirst_discovered hlawful, hsound.nearestFirst_discovered hlawful,
      t.shares_eq_filter target hr, nearestFirst_filter (t.numbers_shares target r')]
    refine ⟨?_, rfl⟩
    obtain ⟨hordered, -⟩ := nearest_nearestFirst (t.numbers_shares target r')
    refine hordered.filter_prefix (fun hit hhit => ?_) (isNaN_of_le hr).1
    exact t.numbers_shares target r' hit ((nearestFirst_perm _).mem_iff.1 hhit)

/-- Without laws the narrower search misses a point, and its hits are not those with which the wider
one begins, whose radius is infinite; with the Hamming distance they are. -/
theorem search_mono_skewed_hamming :
    (∃ t answers, (fresh .smallest skewed).performAll
        [.addBatch [(1, 1), (2, 3), (3, 7), (4, 15), (5, 31), (6, 2), (7, 12)]] =
          .ok (t, answers) ∧
      ∃ near far, t.search 3 3 = .ok near ∧ t.search 3 (1 / 0) = .ok far ∧
        near.hits.map (fun hit => hit.held.point.id) = [2, 6, 3, 1, 5] ∧
        far.hits.map (fun hit => hit.held.point.id) = [2, 6, 3, 1, 4, 5, 7] ∧
        near.hits.Sublist far.hits ∧ near.visited ≤ far.visited ∧ near.measured ≤ far.measured) ∧
    ∃ t answers, (fresh .smallest hamming).performAll
        [.addBatch [(1, 1), (2, 3), (3, 7), (4, 15), (5, 31), (6, 2), (7, 12)]] =
          .ok (t, answers) ∧
      ∃ near far, t.search 3 1 = .ok near ∧ t.search 3 2 = .ok far ∧
        near.hits.map (fun hit => hit.held.point.id) = [2, 6, 3, 1] ∧
        far.hits.map (fun hit => hit.held.point.id) = [2, 6, 3, 1, 4] ∧
        near.hits.Sublist far.hits ∧ near.visited ≤ far.visited ∧ near.measured ≤ far.measured ∧
        near.hits <+: far.hits ∧
        near.hits = far.hits.filter fun hit => hit.distance ≤ 1 := by
  constructor
  · have hfresh : Reachable .smallest skewed (fresh .smallest skewed) := .fresh Shape.smallest_sound
    have hrun : ((fresh .smallest skewed).performAll
        [.addBatch [(1, 1), (2, 3), (3, 7), (4, 15), (5, 31), (6, 2), (7, 12)]]).toOption.any
          (fun r => (r.1.search 3 3).toOption.any (fun near =>
            decide (near.hits.map (fun hit => hit.held.point.id) = [2, 6, 3, 1, 5])) &&
          (r.1.search 3 (1 / 0)).toOption.any (fun far =>
            decide (far.hits.map (fun hit => hit.held.point.id) = [2, 6, 3, 1, 4, 5, 7]))) =
              true := by
      decide +kernel
    obtain ⟨t, answers, hok, hresult⟩ := any_performAll.1 hrun
    obtain ⟨hids, hids'⟩ := Bool.and_eq_true_iff.1 hresult
    obtain ⟨near, far, hnear, hfar, hhits, hvisited, hmeasured, -⟩ :=
      (hfresh.performAll hok).search_mono unsigned_skewed 3
        (by decide +kernel : (3 : Float) ≤ 1 / 0)
    rw [hnear] at hids
    rw [hfar] at hids'
    exact ⟨t, answers, hok, near, far, hnear, hfar, of_decide_eq_true hids,
      of_decide_eq_true hids', hhits, hvisited, hmeasured⟩
  · have hfresh : Reachable .smallest hamming (fresh .smallest hamming) :=
      .fresh Shape.smallest_sound
    have hrun : ((fresh .smallest hamming).performAll
        [.addBatch [(1, 1), (2, 3), (3, 7), (4, 15), (5, 31), (6, 2), (7, 12)]]).toOption.any
          (fun r => (r.1.search 3 1).toOption.any (fun near =>
            decide (near.hits.map (fun hit => hit.held.point.id) = [2, 6, 3, 1])) &&
          (r.1.search 3 2).toOption.any (fun far =>
            decide (far.hits.map (fun hit => hit.held.point.id) = [2, 6, 3, 1, 4]))) = true := by
      decide +kernel
    obtain ⟨t, answers, hok, hresult⟩ := any_performAll.1 hrun
    obtain ⟨hids, hids'⟩ := Bool.and_eq_true_iff.1 hresult
    obtain ⟨near, far, hnear, hfar, hhits, hvisited, hmeasured, hlawful⟩ :=
      (hfresh.performAll hok).search_mono tame_hamming.unsigned 3
        (by decide +kernel : (1 : Float) ≤ 2)
    obtain ⟨hbegin, hfilter⟩ := hlawful lawful_hamming
    rw [hnear] at hids
    rw [hfar] at hids'
    exact ⟨t, answers, hok, near, far, hnear, hfar, of_decide_eq_true hids,
      of_decide_eq_true hids', hhits, hvisited, hmeasured, hbegin, hfilter⟩

end Tree

end Vantage
