/-
**Putting hits in order is a stable sort.**

A list that is in order of some key is determined by the elements of each key, in their order. So
there is one way to put a list in order that leaves elements with the same key as they stand, and
inserting the elements one after another is that way.

Main results:

* `eq_of_ordered` — **a list in order is determined by the elements of each key**;
* `filter_mergeSort`, `nearest_nearestFirst` — both sorts leave elements with the same key as they
  stand;
* `Nearest.exists_parted`, `Parted.insertHit` — the place of a hit among hits in order can be found
  by halving;
* `nearestFirst_sublist`, `nearestFirst_filter` — **leaving hits out does not move the others**;
* `nearestFirst_eq_mergeSort` — the hits of a search are sorted stably by distance.
-/

import Vantage.Hit
import Vantage.Proofs.Binary64.Sums

set_option relaxedAutoImplicit false
set_option autoImplicit false

namespace Vantage

open Binary64 (value le_iff_value le_or_lt_of_isNaN lt_iff_value)

/-! ### Lists in order of a key -/

section keys

variable {α κ : Type} [LinearOrder κ] {key : α → κ}

/-- **A list in order is determined by the elements of each key.** -/
theorem eq_of_ordered {l m : List α} (hl : l.Pairwise (key · ≤ key ·))
    (hm : m.Pairwise (key · ≤ key ·))
    (h : ∀ c, l.filter (key · = c) = m.filter (key · = c)) : l = m := by
  have hmem : ∀ a, a ∈ l ↔ a ∈ m := by
    intro a
    have hiff : a ∈ l.filter (key · = key a) ↔ a ∈ m.filter (key · = key a) := by rw [h]
    simpa using hiff
  induction l generalizing m with
  | nil =>
      cases m with
      | nil => rfl
      | cons b m => exact absurd ((hmem b).2 List.mem_cons_self) List.not_mem_nil
  | cons a l ih =>
      cases m with
      | nil => exact absurd ((hmem a).1 List.mem_cons_self) List.not_mem_nil
      | cons b m =>
          obtain ⟨ha, hl⟩ := List.pairwise_cons.1 hl
          obtain ⟨hb, hm'⟩ := List.pairwise_cons.1 hm
          -- the first elements have the least key, and are the first with it
          have hkey : key a = key b := by
            apply le_antisymm
            · rcases List.mem_cons.1 ((hmem b).2 List.mem_cons_self) with heq | hbl
              · rw [heq]
              · exact ha b hbl
            · rcases List.mem_cons.1 ((hmem a).1 List.mem_cons_self) with heq | ham
              · rw [heq]
              · exact hb a ham
          have hfirst := h (key a)
          rw [List.filter_cons_of_pos (by simp), List.filter_cons_of_pos (by simp [hkey])] at hfirst
          obtain ⟨rfl, -⟩ := List.cons.inj hfirst
          have hrest : ∀ c, l.filter (key · = c) = m.filter (key · = c) := by
            intro c
            have hc := h c
            by_cases heq : key a = c
            · rw [List.filter_cons_of_pos (by simpa using heq),
                List.filter_cons_of_pos (by simpa using heq)] at hc
              exact (List.cons.inj hc).2
            · rwa [List.filter_cons_of_neg (by simpa using heq),
                List.filter_cons_of_neg (by simpa using heq)] at hc
          refine congrArg (a :: ·) (ih hl hm' hrest fun x => ?_)
          have hiff : x ∈ l.filter (key · = key x) ↔ x ∈ m.filter (key · = key x) := by rw [hrest]
          simpa using hiff

/-- Merging leaves elements with the same key as they stand. -/
theorem filter_mergeSort (l : List α) (c : κ) :
    (l.mergeSort (key · ≤ key ·)).filter (key · = c) = l.filter (key · = c) := by
  have hsub : (l.filter (key · = c)).Sublist (l.mergeSort (key · ≤ key ·)) := by
    refine List.sublist_mergeSort (fun a b c => ?_) (fun a b => ?_) ?_ List.filter_sublist
    · simpa using le_trans
    · simpa using le_total (key a) (key b)
    · refine List.pairwise_of_forall_mem_list fun a ha b hb => ?_
      obtain ⟨-, ha⟩ := List.mem_filter.1 ha
      obtain ⟨-, hb⟩ := List.mem_filter.1 hb
      simp only [decide_eq_true_eq] at ha hb ⊢
      rw [ha, hb]
  have hfiltered := hsub.filter (key · = c)
  rw [List.filter_filter] at hfiltered
  simp only [Bool.and_self] at hfiltered
  exact (hfiltered.eq_of_length ((List.mergeSort_perm l _).filter _).length_eq.symm).symm

end keys

/-! ### Hits in order of distance -/

/-- Every distance is a number. -/
def Numbers (hits : List Hit) : Prop := ∀ h ∈ hits, h.distance.isNaN = false

/-- The hits are in order of distance, nearest first. -/
def Nearest (hits : List Hit) : Prop :=
  hits.Pairwise fun h h' => value h.distance ≤ value h'.distance

theorem Numbers.insertHit {hits : List Hit} {hit : Hit} (h : Numbers hits)
    (hhit : hit.distance.isNaN = false) : Numbers (insertHit hits hit) := by
  intro x hx
  rcases List.mem_cons.1 ((insertHit_perm hits hit).mem_iff.1 hx) with rfl | hx
  · exact hhit
  · exact h x hx

/-- Putting a hit into hits in order keeps them in order. -/
theorem Nearest.insertHit {hits : List Hit} {hit : Hit} (h : Numbers hits)
    (hhit : hit.distance.isNaN = false) (ho : Nearest hits) : Nearest (insertHit hits hit) := by
  induction hits with
  | nil => exact List.pairwise_singleton _ _
  | cons x rest ih =>
      obtain ⟨hx, hrest⟩ := List.forall_mem_cons.1 h
      obtain ⟨hfirst, ho⟩ := List.pairwise_cons.1 ho
      rw [Vantage.insertHit]
      split
      next hle =>
        rw [le_iff_value hx hhit] at hle
        refine List.pairwise_cons.2 ⟨fun y hy => ?_, ih hrest ho⟩
        rcases List.mem_cons.1 ((insertHit_perm rest hit).mem_iff.1 hy) with rfl | hy
        · exact hle
        · exact hfirst y hy
      next hnot =>
        rw [le_iff_value hx hhit, not_le] at hnot
        refine List.pairwise_cons.2 ⟨fun y hy => ?_, List.pairwise_cons.2 ⟨hfirst, ho⟩⟩
        rcases List.mem_cons.1 hy with rfl | hy
        · exact hnot.le
        · exact hnot.le.trans (hfirst y hy)

/-- A hit parts hits after the first `n`: these are at most as distant as it is, and no others
are. -/
def Parted (hits : List Hit) (hit : Hit) (n : Nat) : Prop :=
  (∀ x ∈ hits.take n, x.distance ≤ hit.distance) ∧ ∀ x ∈ hits.drop n, ¬ x.distance ≤ hit.distance

/-- A hit is put where it parts the hits. -/
theorem Parted.insertHit {hits : List Hit} {hit : Hit} {n : Nat} (h : Parted hits hit n) :
    insertHit hits hit = hits.take n ++ hit :: hits.drop n := by
  obtain ⟨hbefore, hbehind⟩ := h
  induction hits generalizing n with
  | nil => simp [Vantage.insertHit]
  | cons x rest ih =>
      rw [Vantage.insertHit]
      cases n with
      | zero => rw [if_neg (hbehind x List.mem_cons_self), List.take_zero, List.drop_zero]; rfl
      | succ n =>
          rw [List.take_succ_cons] at hbefore ⊢
          rw [List.drop_succ_cons] at hbehind ⊢
          obtain ⟨hx, hbefore⟩ := List.forall_mem_cons.1 hbefore
          rw [if_pos hx, ih hbefore hbehind, List.cons_append]

/-- **Every hit parts hits in order**, so that its place can be found by halving. -/
theorem Nearest.exists_parted {hits : List Hit} {hit : Hit} (h : Numbers hits)
    (hhit : hit.distance.isNaN = false) (ho : Nearest hits) : ∃ n, Parted hits hit n := by
  induction hits with
  | nil => exact ⟨0, by simp [Parted]⟩
  | cons x rest ih =>
      obtain ⟨hx, hrest⟩ := List.forall_mem_cons.1 h
      obtain ⟨hfirst, ho⟩ := List.pairwise_cons.1 ho
      by_cases hle : x.distance ≤ hit.distance
      · obtain ⟨n, hbefore, hbehind⟩ := ih hrest ho
        exact ⟨n + 1, List.forall_mem_cons.2 ⟨hle, hbefore⟩, hbehind⟩
      · -- the hits behind the first that is more distant are so, too
        refine ⟨0, by simp, fun y hy hnear => ?_⟩
        rw [le_iff_value hx hhit, not_le] at hle
        rcases List.mem_cons.1 hy with rfl | hy
        · exact absurd ((le_iff_value hx hhit).1 hnear) (not_le.2 hle)
        · refine absurd ((le_iff_value (hrest y hy) hhit).1 hnear) (not_le.2 ?_)
          exact hle.trans_le (hfirst y hy)

/-- A hit comes somewhere among the others. -/
theorem Nearest.sublist_insertHit {hits : List Hit} {hit : Hit} (h : Numbers hits)
    (hhit : hit.distance.isNaN = false) (ho : Nearest hits) :
    hits.Sublist (Vantage.insertHit hits hit) := by
  obtain ⟨n, hparted⟩ := ho.exists_parted h hhit
  rw [hparted.insertHit]
  conv_lhs => rw [← List.take_append_drop n hits]
  exact (List.sublist_cons_self _ _).append_left _

/-- Hits that are among others in order stay among them when the same hit is put into both. -/
theorem Nearest.insertHit_sublist {hits hits' : List Hit} {hit : Hit} (hsub : hits.Sublist hits')
    (h : Numbers hits') (hhit : hit.distance.isNaN = false) (ho : Nearest hits') :
    (Vantage.insertHit hits hit).Sublist (Vantage.insertHit hits' hit) := by
  obtain ⟨n, hparted⟩ := ho.exists_parted h hhit
  rw [hparted.insertHit]
  rw [← List.take_append_drop n hits', List.sublist_append_iff] at hsub
  obtain ⟨front, back, rfl, hfront, hback⟩ := hsub
  obtain ⟨hbefore, hbehind⟩ := hparted
  have hparted' : Parted (front ++ back) hit front.length := by
    rw [Parted, List.take_left, List.drop_left]
    exact ⟨fun x hx => hbefore x (hfront.subset hx), fun x hx => hbehind x (hback.subset hx)⟩
  rw [hparted'.insertHit, List.take_left, List.drop_left]
  exact hfront.append (hback.cons_cons hit)

/-- A hit comes behind the hits that are as distant. -/
theorem filter_insertHit {hits : List Hit} {hit : Hit} (h : Numbers hits)
    (hhit : hit.distance.isNaN = false) (ho : Nearest hits) (c : EReal) :
    (insertHit hits hit).filter (fun x => value x.distance = c) =
      (hits ++ [hit]).filter fun x => value x.distance = c := by
  induction hits with
  | nil => rfl
  | cons x rest ih =>
      obtain ⟨hx, hrest⟩ := List.forall_mem_cons.1 h
      obtain ⟨hfirst, ho⟩ := List.pairwise_cons.1 ho
      rw [Vantage.insertHit]
      split
      next => rw [List.filter_cons, ih hrest ho, List.cons_append, List.filter_cons]
      next hnot =>
        rw [le_iff_value hx hhit, not_le] at hnot
        by_cases hc : value hit.distance = c
        · -- the hits behind are all more distant
          have hnil : (x :: rest).filter (fun y => value y.distance = c) = [] := by
            refine List.filter_eq_nil_iff.2 fun y hy => ?_
            have hlt : value hit.distance < value y.distance := by
              rcases List.mem_cons.1 hy with rfl | hy
              · exact hnot
              · exact hnot.trans_le (hfirst y hy)
            simpa using fun heq => hlt.ne (hc.trans heq.symm)
          rw [List.filter_cons, hnil, List.filter_append, hnil, List.filter_cons]
          rfl
        · rw [List.filter_cons_of_neg (by simpa using hc), List.filter_append,
            List.filter_cons_of_neg (l := []) (by simpa using hc), List.filter_nil,
            List.append_nil]

/-- Putting one hit after another into hits in order. -/
theorem nearest_foldl_insertHit {hits found : List Hit} (hfound : Numbers found)
    (h : Numbers hits) (ho : Nearest hits) :
    Nearest (found.foldl insertHit hits) ∧
      ∀ c, (found.foldl insertHit hits).filter (fun x => value x.distance = c) =
        (hits ++ found).filter fun x => value x.distance = c := by
  induction found generalizing hits with
  | nil => exact ⟨ho, fun c => by rw [List.append_nil]; rfl⟩
  | cons x rest ih =>
      obtain ⟨hx, hrest⟩ := List.forall_mem_cons.1 hfound
      obtain ⟨hnearest, hfilter⟩ := ih hrest (h.insertHit hx) (ho.insertHit h hx)
      refine ⟨hnearest, fun c => (hfilter c).trans ?_⟩
      rw [List.filter_append, filter_insertHit h hx ho, ← List.filter_append, List.append_assoc]
      rfl

/-- Fewer hits, put into fewer hits in order. -/
theorem foldl_insertHit_sublist {found found' hits hits' : List Hit}
    (hfound : found.Sublist found') (hnumbers : Numbers found') (hsub : hits.Sublist hits')
    (h : Numbers hits') (ho : Nearest hits') :
    (found.foldl insertHit hits).Sublist (found'.foldl insertHit hits') := by
  induction hfound generalizing hits hits' with
  | slnil => exact hsub
  | cons x _ ih =>
      obtain ⟨hx, hrest⟩ := List.forall_mem_cons.1 hnumbers
      exact ih hrest (hsub.trans (ho.sublist_insertHit h hx)) (h.insertHit hx) (ho.insertHit h hx)
  | cons_cons x _ ih =>
      obtain ⟨hx, hrest⟩ := List.forall_mem_cons.1 hnumbers
      exact ih hrest (ho.insertHit_sublist hsub h hx) (h.insertHit hx) (ho.insertHit h hx)

/-- **Hits that are left out leave the others as they stand.** -/
theorem nearestFirst_sublist {found found' : List Hit} (hfound : found.Sublist found')
    (h : Numbers found') : (nearestFirst found).Sublist (nearestFirst found') :=
  foldl_insertHit_sublist hfound h (.refl []) (by simp [Numbers]) .nil

/-- **The hits of a search are in order, and equally distant ones stand as they were found.** -/
theorem nearest_nearestFirst {found : List Hit} (h : Numbers found) :
    Nearest (nearestFirst found) ∧
      ∀ c, (nearestFirst found).filter (fun x => value x.distance = c) =
        found.filter fun x => value x.distance = c :=
  nearest_foldl_insertHit h (by simp [Numbers]) .nil

/-- Putting hits in order and picking some of them out can change places. -/
theorem nearestFirst_filter {found : List Hit} (h : Numbers found) (p : Hit → Bool) :
    nearestFirst (found.filter p) = (nearestFirst found).filter p := by
  obtain ⟨hnearest, hfilter⟩ := nearest_nearestFirst h
  have h' : Numbers (found.filter p) := fun x hx => h x (List.mem_of_mem_filter hx)
  obtain ⟨hnearest', hfilter'⟩ := nearest_nearestFirst h'
  refine @eq_of_ordered _ _ _ (fun x : Hit => value x.distance) _ _ hnearest'
    (hnearest.filter p) fun c => ?_
  rw [hfilter', List.filter_comm, ← hfilter, List.filter_comm]

/-- Hits in order begin with those within a radius. -/
theorem Nearest.filter_prefix {hits : List Hit} {radius : Float} (h : Numbers hits)
    (hradius : radius.isNaN = false) (ho : Nearest hits) :
    hits.filter (fun x => x.distance ≤ radius) <+: hits := by
  induction hits with
  | nil => exact List.nil_prefix
  | cons x rest ih =>
      obtain ⟨hx, hrest⟩ := List.forall_mem_cons.1 h
      obtain ⟨hfirst, ho⟩ := List.pairwise_cons.1 ho
      by_cases hle : x.distance ≤ radius
      · rw [List.filter_cons_of_pos (by simpa using hle)]
        exact List.prefix_cons_inj x |>.2 (ih hrest ho)
      · -- the hits behind one that is too distant are too distant
        rw [List.filter_eq_nil_iff.2]
        · exact List.nil_prefix
        · intro y hy
          rw [le_iff_value hx hradius, not_le] at hle
          rcases List.mem_cons.1 hy with rfl | hy
          · simpa [le_iff_value hx hradius] using hle
          · simpa [le_iff_value (hrest y hy) hradius] using hle.trans_le (hfirst y hy)

/-- **The hits of a search are sorted stably by distance.** -/
theorem nearestFirst_eq_mergeSort {found : List Hit} (h : Numbers found) :
    nearestFirst found = found.mergeSort fun x y => x.distance ≤ y.distance := by
  have hle : found.mergeSort (fun x y => x.distance ≤ y.distance) =
      found.mergeSort fun x y => value x.distance ≤ value y.distance := by
    have hmap := List.map_mergeSort (f := id) (l := found)
      (r := fun x y => decide (x.distance ≤ y.distance))
      (s := fun x y => decide (value x.distance ≤ value y.distance)) fun x hx y hy => by
        rw [decide_eq_decide]
        exact le_iff_value (h x hx) (h y hy)
    simpa using hmap
  obtain ⟨hnearest, hfilter⟩ := nearest_nearestFirst h
  rw [hle]
  refine @eq_of_ordered _ _ _ (fun x : Hit => value x.distance) _ _ hnearest ?_ fun c => ?_
  · have hsorted : (found.mergeSort fun x y => value x.distance ≤ value y.distance).Pairwise
        fun x y => decide (value x.distance ≤ value y.distance) = true :=
      List.pairwise_mergeSort (fun a b c => by simpa using le_trans)
        (fun a b => by simpa using le_total _ _) found
    simpa using hsorted
  · rw [hfilter c, filter_mergeSort]

end Vantage
