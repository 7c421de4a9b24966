/-
**Lists of values under ascending numbers, as collections.**

Putting a value exchanges it for the one that stands under its number; gathering keeps all values.

Main results:

* `Keyed.perm_set`, `Keyed.perm_setAll` — **nothing else enters or leaves** when values are put;
* `Keyed.mem_set` — what a list consists of after a value is put;
* `Keyed.ascending_set` — putting a value keeps the numbers ascending;
* `Keyed.perm_gather`, `Keyed.mem_gather` — gathering loses and adds nothing.
-/

import Mathlib.Data.List.Nodup
import Vantage.Keyed

set_option relaxedAutoImplicit false
set_option autoImplicit false

namespace Vantage.Keyed

variable {α : Type}

/-! ### Finding values -/

theorem mem_of_get? {k : Nat} {a : α} {l : List (Nat × α)} (h : get? k l = some a) :
    (k, a) ∈ l := by
  induction l with
  | nil => exact absurd h (by simp)
  | cons x rest ih =>
      obtain ⟨j, b⟩ := x
      rw [get?_cons] at h
      split at h
      next hkj =>
        obtain rfl := Option.some.inj h
        rw [hkj]
        exact List.mem_cons_self
      next => exact List.mem_cons_of_mem _ (ih h)

theorem get?_of_mem {k : Nat} {a : α} {l : List (Nat × α)} (hl : Ascending l)
    (h : (k, a) ∈ l) : get? k l = some a := by
  induction l with
  | nil => exact absurd h (by simp)
  | cons x rest ih =>
      obtain ⟨j, b⟩ := x
      obtain ⟨hfirst, hrest⟩ := List.pairwise_cons.1 hl
      rw [get?_cons]
      rcases List.mem_cons.1 h with heq | hmem
      · cases heq
        exact if_pos rfl
      · rw [if_neg (Nat.ne_of_gt (hfirst _ hmem))]
        exact ih hrest hmem

/-- Values may be referred to in another way. -/
theorem get?_map {β : Type} (f : α → β) (k : Nat) (l : List (Nat × α)) :
    get? k (l.map fun x => (x.1, f x.2)) = (get? k l).map f := by
  induction l with
  | nil => rfl
  | cons x rest ih =>
      rw [List.map_cons, get?_cons, get?_cons, ih]
      split <;> rfl

theorem Ascending.map {β : Type} (f : α → β) {l : List (Nat × α)} (h : Ascending l) :
    Ascending (l.map fun x => (x.1, f x.2)) :=
  List.pairwise_map.2 h

/-- Different places of a list have different numbers. -/
theorem Ascending.nodup {l : List (Nat × α)} (h : Ascending l) : (l.map Prod.fst).Nodup := by
  rw [List.Nodup, List.pairwise_map]
  exact h.imp fun hlt => Nat.ne_of_lt hlt

/-! ### Putting values -/

/-- The value under a number is exchanged, and nothing else enters or leaves. -/
theorem perm_set (k : Nat) (a : α) {l : List (Nat × α)} (h : Ascending l) :
    (set k a l ++ (get? k l).toList.map (Prod.mk k)).Perm ((k, a) :: l) := by
  fun_induction set k a l with
  | case1 => simp
  | case2 j b rest hkj =>
      have hnone : get? k ((j, b) :: rest) = none := get?_eq_none fun y hy => by
        rcases List.mem_cons.1 hy with rfl | hy
        · exact hkj
        · exact Nat.lt_trans hkj ((List.pairwise_cons.1 h).1 y hy)
      simp [hnone]
  | case3 b rest hkj =>
      rw [get?_cons, if_pos rfl]
      exact (List.perm_append_singleton (k, b) rest).cons (k, a)
  | case4 j b rest hkj hne ih =>
      rw [get?_cons, if_neg hne]
      exact ((ih (List.pairwise_cons.1 h).2).cons (j, b)).trans (.swap (k, a) (j, b) rest)

theorem mem_set_cases {k : Nat} {a : α} {l : List (Nat × α)} {x : Nat × α}
    (hx : x ∈ set k a l) : x = (k, a) ∨ x ∈ l := by
  fun_induction set k a l with
  | case1 => exact .inl (List.mem_singleton.1 hx)
  | case2 j b rest hkj => exact List.mem_cons.1 hx
  | case3 b rest hkj =>
      rcases List.mem_cons.1 hx with hx | hx
      · exact .inl hx
      · exact .inr (List.mem_cons_of_mem _ hx)
  | case4 j b rest hkj hne ih =>
      rcases List.mem_cons.1 hx with rfl | hx
      · exact .inr List.mem_cons_self
      · exact (ih hx).imp id (List.mem_cons_of_mem _)

theorem ascending_set (k : Nat) (a : α) {l : List (Nat × α)} (h : Ascending l) :
    Ascending (set k a l) := by
  fun_induction set k a l with
  | case1 => exact List.pairwise_singleton _ _
  | case2 j b rest hkj =>
      refine List.pairwise_cons.2 ⟨fun y hy => ?_, h⟩
      rcases List.mem_cons.1 hy with rfl | hy
      · exact hkj
      · exact Nat.lt_trans hkj ((List.pairwise_cons.1 h).1 y hy)
  | case3 b rest hkj => exact List.pairwise_cons.2 (List.pairwise_cons.1 h)
  | case4 j b rest hkj hne ih =>
      obtain ⟨hfirst, hrest⟩ := List.pairwise_cons.1 h
      refine List.pairwise_cons.2 ⟨fun y hy => ?_, ih hrest⟩
      rcases mem_set_cases hy with rfl | hy
      · show j < k
        omega
      · exact hfirst y hy

/-- After a value is put, the list consists of that value and of those under other numbers. -/
theorem mem_set {k : Nat} {a : α} {l : List (Nat × α)} (h : Ascending l) {x : Nat × α} :
    x ∈ set k a l ↔ x = (k, a) ∨ (x ∈ l ∧ x.1 ≠ k) := by
  have hset := ascending_set k a h
  constructor
  · intro hx
    rcases mem_set_cases hx with rfl | hmem
    · exact .inl rfl
    · by_cases hk : x.1 = k
      · -- one value at most stands under a number, and the new one does
        have hget := get?_of_mem hset (show (x.1, x.2) ∈ set k a l from hx)
        rw [get?_set, if_pos hk] at hget
        exact .inl (Prod.ext hk (Option.some.inj hget).symm)
      · exact .inr ⟨hmem, hk⟩
  · rintro (rfl | ⟨hmem, hk⟩)
    · exact mem_of_get? (by rw [get?_set, if_pos rfl])
    · refine mem_of_get? (k := x.1) (a := x.2) ?_
      rw [get?_set, if_neg hk]
      exact get?_of_mem h hmem

/-- Putting the value that stands there changes nothing. -/
theorem set_eq_self {k : Nat} {a : α} {l : List (Nat × α)} (hl : Ascending l)
    (h : get? k l = some a) : set k a l = l := by
  induction l with
  | nil => cases h
  | cons x rest ih =>
      obtain ⟨j, b⟩ := x
      obtain ⟨hfirst, hrest⟩ := List.pairwise_cons.1 hl
      rw [get?_cons] at h
      split at h
      next hkj =>
        obtain rfl := Option.some.inj h
        simp [set, hkj]
      next hkj =>
        have hlt : j < k := hfirst _ (mem_of_get? h)
        simp [set, hkj, Nat.not_lt_of_lt hlt, ih hrest h]

theorem map_set {β : Type} (f : α → β) (k : Nat) (a : α) (l : List (Nat × α)) :
    (set k a l).map (fun x => (x.1, f x.2)) = set k (f a) (l.map fun x => (x.1, f x.2)) := by
  induction l with
  | nil => rfl
  | cons x rest ih =>
      simp only [set, List.map_cons]
      split
      · rfl
      · split
        · rfl
        · rw [List.map_cons, ih]

/-! ### Putting several values -/

/-- Puts values under their numbers, in order. -/
def setAll (links l : List (Nat × α)) : List (Nat × α) :=
  links.foldl (fun l x => set x.1 x.2 l) l

@[simp] theorem setAll_nil (l : List (Nat × α)) : setAll [] l = l := rfl

@[simp] theorem setAll_cons (x : Nat × α) (links l : List (Nat × α)) :
    setAll (x :: links) l = setAll links (set x.1 x.2 l) := rfl

theorem ascending_setAll (links : List (Nat × α)) {l : List (Nat × α)} (h : Ascending l) :
    Ascending (setAll links l) := by
  induction links generalizing l with
  | nil => exact h
  | cons x links ih => exact ih (ascending_set x.1 x.2 h)

/-- What a list consists of after values are put under different numbers. -/
theorem mem_setAll {links l : List (Nat × α)} (hl : Ascending l)
    (hlinks : (links.map Prod.fst).Nodup) {x : Nat × α} :
    x ∈ setAll links l ↔ x ∈ links ∨ (x ∈ l ∧ x.1 ∉ links.map Prod.fst) := by
  induction links generalizing l with
  | nil => simp
  | cons y links ih =>
      obtain ⟨hy, hrest⟩ := List.nodup_cons.1 hlinks
      rw [setAll_cons, ih (ascending_set y.1 y.2 hl) hrest, mem_set hl, List.map_cons,
        List.mem_cons, List.mem_cons]
      constructor
      · rintro (hx | ⟨rfl | ⟨hx, hne⟩, hnot⟩)
        · exact .inl (.inr hx)
        · exact .inl (.inl rfl)
        · exact .inr ⟨hx, fun h => h.elim hne hnot⟩
      · rintro ((rfl | hx) | ⟨hx, hnot⟩)
        · exact .inr ⟨.inl rfl, hy⟩
        · exact .inl hx
        · exact .inr ⟨.inr ⟨hx, fun h => hnot (.inl h)⟩, fun h => hnot (.inr h)⟩

/-- A value stays where it is unless another is put under its number. -/
theorem get?_setAll {links l : List (Nat × α)} (hl : Ascending l)
    (hlinks : (links.map Prod.fst).Nodup) {k : Nat} {a : α} (ha : get? k l = some a) :
    get? k (setAll links l) = some a ∨
      ∃ b, (k, b) ∈ links ∧ get? k (setAll links l) = some b := by
  have hasc := ascending_setAll links hl
  by_cases hk : k ∈ links.map Prod.fst
  · obtain ⟨⟨k, b⟩, hb, rfl⟩ := List.mem_map.1 hk
    exact .inr ⟨b, hb, get?_of_mem hasc ((mem_setAll hl hlinks).2 (.inl hb))⟩
  · exact .inl (get?_of_mem hasc ((mem_setAll hl hlinks).2 (.inr ⟨mem_of_get? ha, hk⟩)))

theorem map_setAll {β : Type} (f : α → β) (links l : List (Nat × α)) :
    (setAll links l).map (fun x => (x.1, f x.2)) =
      setAll (links.map fun x => (x.1, f x.2)) (l.map fun x => (x.1, f x.2)) := by
  induction links generalizing l with
  | nil => rfl
  | cons x links ih => rw [setAll_cons, ih, map_set, List.map_cons, setAll_cons]

/-- A number under which nothing is put keeps its value. -/
theorem get?_setAll_of_not_mem {links l : List (Nat × α)} {k : Nat}
    (hk : k ∉ links.map Prod.fst) : get? k (setAll links l) = get? k l := by
  induction links generalizing l with
  | nil => rfl
  | cons x links ih =>
      obtain ⟨hne, hrest⟩ := List.ne_and_not_mem_of_not_mem_cons hk
      rw [setAll_cons, ih hrest, get?_set, if_neg hne]

/-- Values put under different numbers are exchanged for those that stood there, and nothing else
enters or leaves. -/
theorem perm_setAll {links l : List (Nat × α)} (hl : Ascending l)
    (hlinks : (links.map Prod.fst).Nodup) :
    (setAll links l ++
      links.flatMap fun x => (get? x.1 l).toList.map (Prod.mk x.1)).Perm (links ++ l) := by
  induction links generalizing l with
  | nil => simp
  | cons x links ih =>
      obtain ⟨hx, hrest⟩ := List.nodup_cons.1 hlinks
      -- the later values are put under other numbers, where the first has changed nothing
      have hother : (links.flatMap fun y => (get? y.1 l).toList.map (Prod.mk y.1)) =
          links.flatMap fun y => (get? y.1 (set x.1 x.2 l)).toList.map (Prod.mk y.1) := by
        refine List.flatMap_congr fun y hy => ?_
        have hne : y.1 ≠ x.1 := fun heq => hx (heq ▸ List.mem_map_of_mem hy)
        rw [get?_set, if_neg hne]
      have hfirst := perm_set x.1 x.2 hl
      rw [setAll_cons, List.flatMap_cons, hother]
      calc setAll links (set x.1 x.2 l) ++ ((get? x.1 l).toList.map (Prod.mk x.1) ++ _)
          |>.Perm ((setAll links (set x.1 x.2 l) ++ _) ++
              (get? x.1 l).toList.map (Prod.mk x.1)) := by
            rw [List.append_assoc]
            exact List.perm_append_comm.append_left _
        _ |>.Perm ((links ++ set x.1 x.2 l) ++ (get? x.1 l).toList.map (Prod.mk x.1)) :=
            (ih (ascending_set x.1 x.2 hl) hrest).append_right _
        _ |>.Perm (links ++ (x :: l)) := by
            rw [List.append_assoc]
            exact hfirst.append_left links
        _ |>.Perm (x :: links ++ l) := List.perm_middle

/-! ### Gathering -/

theorem perm_push (k : Nat) (a : α) (l : List (Nat × List α)) :
    ((push k a l).flatMap Prod.snd).Perm (a :: l.flatMap Prod.snd) := by
  fun_induction push k a l with
  | case1 => exact .refl _
  | case2 j as rest hkj => exact .refl _
  | case3 as rest hkj => exact .refl _
  | case4 j as rest hkj hne ih => exact (ih.append_left as).trans List.perm_middle

/-- **Gathering loses and adds nothing.** -/
theorem perm_gather (l : List (Nat × α)) :
    ((gather l).flatMap Prod.snd).Perm (l.map Prod.snd) := by
  induction l with
  | nil => exact .refl _
  | cons x l ih => exact (perm_push x.1 x.2 (gather l)).trans (ih.cons x.2)

theorem mem_push_value {k : Nat} {a : α} {l : List (Nat × List α)} {x : Nat × List α} {b : α}
    (hx : x ∈ push k a l) (hb : b ∈ x.2) :
    (x.1 = k ∧ b = a) ∨ ∃ y ∈ l, y.1 = x.1 ∧ b ∈ y.2 := by
  fun_induction push k a l with
  | case1 =>
      obtain rfl := List.mem_singleton.1 hx
      exact .inl ⟨rfl, List.mem_singleton.1 hb⟩
  | case2 j as rest hkj =>
      rcases List.mem_cons.1 hx with rfl | hx
      · exact .inl ⟨rfl, List.mem_singleton.1 hb⟩
      · exact .inr ⟨x, hx, rfl, hb⟩
  | case3 as rest hkj =>
      rcases List.mem_cons.1 hx with rfl | hx
      · rcases List.mem_cons.1 hb with rfl | hb
        · exact .inl ⟨rfl, rfl⟩
        · exact .inr ⟨(k, as), List.mem_cons_self, rfl, hb⟩
      · exact .inr ⟨x, List.mem_cons_of_mem _ hx, rfl, hb⟩
  | case4 j as rest hkj hne ih =>
      rcases List.mem_cons.1 hx with rfl | hx
      · exact .inr ⟨(j, as), List.mem_cons_self, rfl, hb⟩
      · rcases ih hx with h | ⟨y, hy, hyx, hby⟩
        · exact .inl h
        · exact .inr ⟨y, List.mem_cons_of_mem _ hy, hyx, hby⟩

/-- What is gathered under a number was given under that number. -/
theorem mem_gather {l : List (Nat × α)} {x : Nat × List α} {b : α} (hx : x ∈ gather l)
    (hb : b ∈ x.2) : (x.1, b) ∈ l := by
  induction l generalizing x with
  | nil => exact absurd hx (by simp)
  | cons y l ih =>
      rcases mem_push_value hx hb with ⟨hk, rfl⟩ | ⟨z, hz, hzx, hbz⟩
      · rw [hk]
        exact List.mem_cons_self
      · rw [← hzx]
        exact List.mem_cons_of_mem _ (ih hz hbz)

theorem push_ne_nil (k : Nat) (a : α) {l : List (Nat × List α)} (h : ∀ x ∈ l, x.2 ≠ []) :
    ∀ x ∈ push k a l, x.2 ≠ [] := by
  fun_induction push k a l with
  | case1 => simp
  | case2 j as rest hkj => exact List.forall_mem_cons.2 ⟨by simp, h⟩
  | case3 as rest hkj => exact List.forall_mem_cons.2 ⟨by simp, (List.forall_mem_cons.1 h).2⟩
  | case4 j as rest hkj hne ih =>
      obtain ⟨hfirst, hrest⟩ := List.forall_mem_cons.1 h
      exact List.forall_mem_cons.2 ⟨hfirst, ih hrest⟩

/-- Nothing is gathered under a number without values. -/
theorem gather_ne_nil {l : List (Nat × α)} {x : Nat × List α} (hx : x ∈ gather l) :
    x.2 ≠ [] := by
  induction l generalizing x with
  | nil => exact absurd hx (by simp)
  | cons y l ih => exact push_ne_nil y.1 y.2 (fun z hz => ih hz) x hx

end Vantage.Keyed
