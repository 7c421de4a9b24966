/-
**Lists of values under ascending numbers.**

Children, buckets and frozen cuts are few and are read in the order of their numbers; they are kept
as lists of pairs in ascending order of the number.

Main definitions:

* `Keyed.get?` — the value under a number;
* `Keyed.set` — puts a value under a number, in place of the one that stands there;
* `Keyed.push` — puts a value in front of those collected under a number;
* `Keyed.gather` — collects numbered values under their numbers, in their order.

Main results:

* `Keyed.get?_set` — what is found after putting a value;
* `Keyed.ascending_gather` — gathering gives ascending numbers;
* `Keyed.getD_get?_gather` — under each number stand exactly its values, in their order.
-/

set_option relaxedAutoImplicit false
set_option autoImplicit false

namespace Vantage.Keyed

variable {α : Type}

/-! ### Finding and putting values -/

/-- The value under a number. -/
def get? (k : Nat) : List (Nat × α) → Option α
  | [] => none
  | (j, a) :: rest => if k = j then some a else get? k rest

/-- Puts a value under a number, in place of the one that stands there if there is one. -/
def set (k : Nat) (a : α) : List (Nat × α) → List (Nat × α)
  | [] => [(k, a)]
  | (j, b) :: rest =>
    if k < j then (k, a) :: (j, b) :: rest
    else if k = j then (k, a) :: rest
    else (j, b) :: set k a rest

@[simp] theorem get?_nil (k : Nat) : get? k ([] : List (Nat × α)) = none := rfl

theorem get?_cons (k j : Nat) (a : α) (rest : List (Nat × α)) :
    get? k ((j, a) :: rest) = if k = j then some a else get? k rest := rfl

theorem get?_set (k i : Nat) (a : α) (l : List (Nat × α)) :
    get? i (set k a l) = if i = k then some a else get? i l := by
  fun_induction set k a l <;> grind [get?]

/-! ### Collecting values by number -/

/-- Puts a value in front of those collected under a number. -/
def push (k : Nat) (a : α) : List (Nat × List α) → List (Nat × List α)
  | [] => [(k, [a])]
  | (j, as) :: rest =>
    if k < j then (k, [a]) :: (j, as) :: rest
    else if k = j then (j, a :: as) :: rest
    else (j, as) :: push k a rest

/-- Collects numbered values under their numbers; values of one number keep their order. -/
def gather (l : List (Nat × α)) : List (Nat × List α) :=
  l.foldr (fun x collected => push x.1 x.2 collected) []

/-- The numbers of a list ascend. -/
def Ascending {β : Type} (l : List (Nat × β)) : Prop := l.Pairwise fun x y => x.1 < y.1

@[simp] theorem gather_nil : gather ([] : List (Nat × α)) = [] := rfl

@[simp] theorem gather_cons (x : Nat × α) (l : List (Nat × α)) :
    gather (x :: l) = push x.1 x.2 (gather l) := rfl

theorem get?_eq_none {k : Nat} {l : List (Nat × α)} (h : ∀ x ∈ l, k < x.1) : get? k l = none := by
  induction l with
  | nil => rfl
  | cons x rest ih =>
    have hx := h x (by simp)
    rw [get?_cons, if_neg (by omega), ih fun y hy => h y (by simp [hy])]

/-- Pushing brings in no number but the one that was pushed to. -/
theorem mem_push {k : Nat} {a : α} {l : List (Nat × List α)} {x : Nat × List α}
    (h : x ∈ push k a l) : x.1 = k ∨ ∃ y ∈ l, y.1 = x.1 := by
  fun_induction push k a l with
  | case1 => simp_all
  | case2 j as rest hkj =>
    rcases List.mem_cons.1 h with rfl | h
    · exact .inl rfl
    · exact .inr ⟨x, h, rfl⟩
  | case3 as rest hkj =>
    rcases List.mem_cons.1 h with rfl | h
    · exact .inl rfl
    · exact .inr ⟨x, List.mem_cons_of_mem _ h, rfl⟩
  | case4 j as rest hkj hkj' ih =>
    rcases List.mem_cons.1 h with rfl | h
    · exact .inr ⟨(j, as), List.mem_cons_self, rfl⟩
    · rcases ih h with h | ⟨y, hy, hyx⟩
      · exact .inl h
      · exact .inr ⟨y, List.mem_cons_of_mem _ hy, hyx⟩

theorem ascending_push {k : Nat} (a : α) {l : List (Nat × List α)} (h : Ascending l) :
    Ascending (push k a l) := by
  fun_induction push k a l with
  | case1 => exact List.pairwise_singleton _ _
  | case2 j as rest hkj =>
    refine List.pairwise_cons.2 ⟨fun y hy => ?_, h⟩
    rcases List.mem_cons.1 hy with rfl | hy
    · exact hkj
    · exact Nat.lt_trans hkj ((List.pairwise_cons.1 h).1 y hy)
  | case3 as rest hkj => exact List.pairwise_cons.2 (List.pairwise_cons.1 h)
  | case4 j as rest hkj hkj' ih =>
    obtain ⟨h₁, h₂⟩ := List.pairwise_cons.1 h
    refine List.pairwise_cons.2 ⟨fun y hy => ?_, ih h₂⟩
    rcases mem_push hy with hy | ⟨z, hz, hzy⟩
    · show j < y.1
      omega
    · exact hzy ▸ h₁ z hz

theorem ascending_gather (l : List (Nat × α)) : Ascending (gather l) := by
  induction l with
  | nil => exact .nil
  | cons x l ih => exact ascending_push x.2 ih

/-- Under its number a pushed value stands in front of the others; other numbers keep theirs. -/
theorem getD_get?_push (k i : Nat) (a : α) {l : List (Nat × List α)} (h : Ascending l) :
    (get? i (push k a l)).getD [] =
      if i = k then a :: (get? i l).getD [] else (get? i l).getD [] := by
  fun_induction push k a l with
  | case1 => by_cases hik : i = k <;> simp [get?_cons, hik]
  | case2 j as rest hkj =>
    have hnone : get? k ((j, as) :: rest) = none := get?_eq_none fun y hy => by
      rcases List.mem_cons.1 hy with rfl | hy
      · exact hkj
      · exact Nat.lt_trans hkj ((List.pairwise_cons.1 h).1 y hy)
    by_cases hik : i = k
    · subst hik
      rw [hnone, get?_cons]
      simp
    · rw [get?_cons i k]
      simp [hik]
  | case3 as rest hkj => by_cases hik : i = k <;> simp [get?_cons, hik]
  | case4 j as rest hkj hkj' ih =>
    by_cases hij : i = j
    · have hik : ¬ i = k := by omega
      simp [get?_cons, hij, Ne.symm hkj']
    · simp only [get?_cons, hij, if_false]
      exact ih (List.pairwise_cons.1 h).2

/-- Under each number stand exactly its values, in their order. -/
theorem getD_get?_gather (k : Nat) (l : List (Nat × α)) :
    (get? k (gather l)).getD [] = (l.filter fun x => x.1 = k).map Prod.snd := by
  induction l with
  | nil => rfl
  | cons x l ih =>
    rw [gather_cons, getD_get?_push _ _ _ (ascending_gather l), ih]
    by_cases h : k = x.1
    · simp [h]
    · simp [h, Ne.symm h]

end Vantage.Keyed
