/-
**A search, row by row.**

A search visits a tree level by level. Which nodes it visits is said row by row: the first row is
the root, and a further row consists of the rows above it of those children that the root opens,
side by side. The same holds of the rows of the tree itself, with every child open.

Main definitions:

* `Vantage.rowAt` — one row of a list of rows;
* `Subtree.forest` — the rows of several trees, side by side;
* `Subtree.kids`, `Subtree.entered` — the trees below the roots, and those to which a walk goes on;
* `Node.opens`, `Subtree.goesOn` — the children to which a search goes on;
* `Subtree.visits` — the visits of a search.

Main results:

* `Subtree.search_ok` — **a search of a tree whose points are there succeeds**;
* `Subtree.rowAt_visits_succ`, `Subtree.rowAt_rows_succ` — the rows of a search and of a tree;
* `flatten_eq_of_rowAt` — rows that yield the same one by one yield the same.
-/

import Vantage.Proofs.Subtrees

set_option relaxedAutoImplicit false
set_option autoImplicit false

namespace Vantage

/-! ### Rows -/

section rows

variable {α β γ : Type}

/-- A row of a list of rows; there is nothing below the last. -/
def rowAt (k : Nat) (rows : List (List α)) : List α := rows[k]?.getD []

@[simp] theorem rowAt_nil (k : Nat) : rowAt k ([] : List (List α)) = [] := rfl

@[simp] theorem rowAt_zero_cons (row : List α) (rows : List (List α)) :
    rowAt 0 (row :: rows) = row := rfl

@[simp] theorem rowAt_succ_cons (k : Nat) (row : List α) (rows : List (List α)) :
    rowAt (k + 1) (row :: rows) = rowAt k rows := by
  simp [rowAt]

/-- Side by side, each row holds what the two rows held. -/
theorem rowAt_mergeRows (k : Nat) (xs ys : List (List α)) :
    rowAt k (mergeRows xs ys) = rowAt k xs ++ rowAt k ys := by
  induction xs generalizing k ys with
  | nil => simp
  | cons x xs ih =>
      cases ys with
      | nil => simp
      | cons y ys =>
          cases k with
          | zero => simp
          | succ k => simpa using ih k ys

/-- Rows that yield the same one by one yield the same together. -/
theorem flatten_eq_of_rowAt {f : α → List γ} {g : β → List γ} {xs : List (List α)}
    {ys : List (List β)} (h : ∀ k, (rowAt k xs).flatMap f = (rowAt k ys).flatMap g) :
    xs.flatten.flatMap f = ys.flatten.flatMap g := by
  induction xs generalizing ys with
  | nil =>
      induction ys with
      | nil => rfl
      | cons y ys ih =>
          have hfirst := h 0
          have hrest := ih fun k => by simpa using h (k + 1)
          simp only [rowAt_nil, rowAt_zero_cons, List.flatMap_nil] at hfirst
          rw [List.flatten_cons, List.flatMap_append, ← hfirst, ← hrest]
          rfl
  | cons x xs ih =>
      cases ys with
      | nil =>
          have hfirst := h 0
          have hrest : xs.flatten.flatMap f = ([] : List (List β)).flatten.flatMap g :=
            ih fun k => by simpa using h (k + 1)
          simp only [rowAt_nil, rowAt_zero_cons, List.flatMap_nil] at hfirst
          rw [List.flatten_cons, List.flatMap_append, hfirst, hrest]
          rfl
      | cons y ys =>
          have hfirst := h 0
          simp only [rowAt_zero_cons] at hfirst
          rw [List.flatten_cons, List.flatten_cons, List.flatMap_append, List.flatMap_append,
            hfirst, ih fun k => by simpa using h (k + 1)]

end rows

/-! ### Rows side by side -/

theorem mergeRows_assoc {α : Type} (xs ys zs : List (List α)) :
    mergeRows (mergeRows xs ys) zs = mergeRows xs (mergeRows ys zs) := by
  induction xs generalizing ys zs with
  | nil => simp
  | cons x xs ih =>
      cases ys with
      | nil => simp
      | cons y ys =>
          cases zs with
          | nil => simp
          | cons z zs => simp [ih]

theorem map_mergeRows {α β : Type} (f : α → β) (xs ys : List (List α)) :
    (mergeRows xs ys).map (List.map f) = mergeRows (xs.map (List.map f)) (ys.map (List.map f)) := by
  induction xs generalizing ys with
  | nil => simp
  | cons x xs ih => cases ys <;> simp [ih]

namespace Subtree

variable {α β : Type} {rows : Subtree → List (List α)}

/-- The rows of several trees, side by side. -/
def forest (rows : Subtree → List (List α)) (ts : List Subtree) : List (List α) :=
  ts.foldr (fun t below => mergeRows (rows t) below) []

@[simp] theorem forest_nil (rows : Subtree → List (List α)) : forest rows [] = [] := rfl

theorem forest_cons (rows : Subtree → List (List α)) (t : Subtree) (ts : List Subtree) :
    forest rows (t :: ts) = mergeRows (rows t) (forest rows ts) := rfl

@[simp] theorem forest_singleton (rows : Subtree → List (List α)) (t : Subtree) :
    forest rows [t] = rows t := mergeRows_nil_right _

theorem forest_append (rows : Subtree → List (List α)) (ts ts' : List Subtree) :
    forest rows (ts ++ ts') = mergeRows (forest rows ts) (forest rows ts') := by
  induction ts with
  | nil => simp
  | cons t ts ih => rw [List.cons_append, forest_cons, forest_cons, ih, mergeRows_assoc]

theorem map_forest (f : α → β) (rows : Subtree → List (List α)) (ts : List Subtree) :
    (forest rows ts).map (List.map f) = forest (fun t => (rows t).map (List.map f)) ts := by
  induction ts with
  | nil => rfl
  | cons t ts ih => rw [forest_cons, forest_cons, map_mergeRows, ih]

theorem rowAt_forest (rows : Subtree → List (List α)) (ts : List Subtree) (k : Nat) :
    rowAt k (forest rows ts) = ts.flatMap fun t => rowAt k (rows t) := by
  induction ts with
  | nil => rfl
  | cons t ts ih => rw [forest_cons, rowAt_mergeRows, ih, List.flatMap_cons]

/-- The first row is that of the roots, and the others are those of the trees to which the roots
lead. -/
theorem forest_of_ne_nil {own : Subtree → α} {ahead : Subtree → List Subtree} {ts : List Subtree}
    (hrows : ∀ t ∈ ts, rows t = [own t] :: forest rows (ahead t)) (hne : ts ≠ []) :
    forest rows ts = ts.map own :: forest rows (ts.flatMap ahead) := by
  induction ts with
  | nil => exact absurd rfl hne
  | cons t ts ih =>
      obtain ⟨ht, hts⟩ := List.forall_mem_cons.1 hrows
      rw [forest_cons, ht, List.flatMap_cons]
      cases ts with
      | nil => simp
      | cons t' ts => rw [ih hts (List.cons_ne_nil _ _), mergeRows_cons, ← forest_append]; rfl

theorem flatten_forest {own : Subtree → α} {ahead : Subtree → List Subtree} {ts : List Subtree}
    (hrows : ∀ t ∈ ts, rows t = [own t] :: forest rows (ahead t)) :
    (forest rows ts).flatten = ts.map own ++ (forest rows (ts.flatMap ahead)).flatten := by
  rcases eq_or_ne ts [] with rfl | hne
  · rfl
  · rw [forest_of_ne_nil hrows hne, List.flatten_cons]

/-- The trees below the roots of some trees. -/
def kids (ts : List Subtree) : List Subtree := ts.flatMap fun t => t.children.map Prod.snd

/-- The children to which a walk goes on. -/
def entered (goesOn : Subtree → Nat → Bool) (t : Subtree) : List Subtree :=
  (t.children.filter fun x => goesOn t x.1).map Prod.snd

end Subtree

/-! ### Visits -/

/-- Whether a search goes on from a node to the child of an index. -/
def Node.opens {κ : Type} (parts : Nat) (d : Metric) (target : UInt64) (radius : Float)
    (node : Node Held κ) (index : Nat) : Bool :=
  match node with
  | .leaf _ => true
  | .branch b => Branch.reaches parts radius b.levels (b.gaps d target) index

namespace Subtree

variable {points : Slots Point} {parts : Nat} {d : Metric} {target : UInt64} {radius : Float}

/-- The visits of a search; there are none where a point is missing. -/
def visits (points : Slots Point) (parts : Nat) (d : Metric) (target : UInt64) (radius : Float)
    (t : Subtree) : List (List Visit) :=
  (t.search points parts d target radius).toOption.getD []

/-- A search visits the node and goes on below. -/
theorem search_eq (t : Subtree) : t.search points parts d target radius = do
    let node ← t.node.lookUp points
    let below ← search.searchBelow points parts d target radius
      (node.opens parts d target radius) t.children
    return [node.scan d target radius] :: below := by
  obtain ⟨slot, node⟩ := t
  cases node with
  | leaf l =>
      rw [search]
      simp only [Subtree.node, Node.lookUp, bind_assoc]
      rfl
  | branch b =>
      obtain ⟨fanout, vantage, levels, children⟩ := b
      rw [search]
      simp only [Subtree.node, Node.lookUp, Branch.lookUp, bind_assoc]
      rfl

/-- Searches of children that agree put the same rows together. -/
theorem searchBelow_congr {points' : Slots Point} {reaches : Nat → Bool}
    {children : List (Nat × Subtree)}
    (h : ∀ x ∈ children, x.2.search points' parts d target radius =
      x.2.search points parts d target radius) :
    search.searchBelow points' parts d target radius reaches children =
      search.searchBelow points parts d target radius reaches children := by
  induction children with
  | nil => rfl
  | cons x rest ih =>
      obtain ⟨index, child⟩ := x
      obtain ⟨hchild, hrest⟩ := List.forall_mem_cons.1 h
      rw [search.searchBelow, search.searchBelow, hchild, ih hrest]

/-- **A search depends on the points that the tree holds alone.** -/
theorem search_congr {points' : Slots Point} {t : Subtree}
    (h : ∀ slot ∈ t.held, points'.get? slot = points.get? slot) :
    t.search points' parts d target radius = t.search points parts d target radius := by
  induction t using induction_on with
  | step t ih =>
      rw [search_eq, search_eq, Node.lookUp_congr fun slot hslot => h slot (mem_held_of_own hslot)]
      refine bind_congr fun node => ?_
      rw [searchBelow_congr fun x hx => ih x hx fun slot hslot =>
        h slot (mem_contents_of_child hx hslot)]

/-- Whether a search goes on from a node to the child of an index. -/
def goesOn (points : Slots Point) (parts : Nat) (d : Metric) (target : UInt64) (radius : Float)
    (t : Subtree) (index : Nat) : Bool :=
  (t.looked points).opens parts d target radius index

/-- The rows below a node, when the searches of the children succeed. -/
theorem searchBelow_eq {reaches : Nat → Bool} {children : List (Nat × Subtree)}
    (h : ∀ x ∈ children, x.2.search points parts d target radius =
      .ok (x.2.visits points parts d target radius)) :
    search.searchBelow points parts d target radius reaches children =
      .ok (forest (visits points parts d target radius)
        ((children.filter fun x => reaches x.1).map Prod.snd)) := by
  induction children with
  | nil => rfl
  | cons x rest ih =>
      obtain ⟨index, child⟩ := x
      obtain ⟨hchild, hrest⟩ := List.forall_mem_cons.1 h
      rw [search.searchBelow, ih hrest, List.filter_cons]
      by_cases hreaches : reaches index = true
      · rw [if_pos hreaches, if_pos hreaches, hchild]
        rfl
      · rw [if_neg hreaches, if_neg hreaches]
        simp

/-- A search succeeds when the searches of the children succeed. -/
theorem search_of_children {t : Subtree} (hown : ∀ slot ∈ t.node.points, points.Occupied slot)
    (h : ∀ x ∈ t.children, x.2.search points parts d target radius =
      .ok (x.2.visits points parts d target radius)) :
    t.search points parts d target radius = .ok ([(t.looked points).scan d target radius] ::
      forest (visits points parts d target radius)
        (t.entered (goesOn points parts d target radius))) := by
  rw [search_eq, Node.lookUp_eq hown, ok_bind]
  exact bind_eq_ok.2 ⟨_, searchBelow_eq h, rfl⟩

/-- **A search of a tree whose points are there succeeds.** -/
theorem search_ok {t : Subtree} (h : ∀ slot ∈ t.held, points.Occupied slot) :
    t.search points parts d target radius = .ok (t.visits points parts d target radius) := by
  induction t using induction_on with
  | step t ih =>
      rw [visits, search_of_children (fun slot hslot => h slot (mem_held_of_own hslot))
        fun x hx => ih x hx fun slot hslot => h slot (mem_contents_of_child hx hslot)]
      rfl

section rows

variable {t : Subtree} (h : ∀ slot ∈ t.held, points.Occupied slot)
include h

theorem visits_eq (parts : Nat) (d : Metric) (target : UInt64) (radius : Float) :
    t.visits points parts d target radius = [(t.looked points).scan d target radius] ::
      forest (visits points parts d target radius)
        (t.entered (goesOn points parts d target radius)) := by
  rw [visits, search_of_children (fun slot hslot => h slot (mem_held_of_own hslot))
    fun x hx => search_ok fun slot hslot => h slot (mem_contents_of_child hx hslot)]
  rfl

/-- The first row of a search is the visit to the root. -/
theorem rowAt_visits_zero :
    rowAt 0 (t.visits points parts d target radius) = [(t.looked points).scan d target radius] := by
  rw [visits_eq h, rowAt_zero_cons]

/-- A further row comes from the children to which the search goes on. -/
theorem rowAt_visits_succ (k : Nat) :
    rowAt (k + 1) (t.visits points parts d target radius) = t.children.flatMap fun x =>
      if (t.looked points).opens parts d target radius x.1 then
        rowAt k (x.2.visits points parts d target radius) else [] := by
  rw [visits_eq h, rowAt_succ_cons, rowAt_forest, entered, List.flatMap_map]
  unfold goesOn
  generalize t.children = children
  induction children with
  | nil => rfl
  | cons x rest ih =>
      rw [List.flatMap_cons, ← ih, List.filter_cons]
      split <;> simp

end rows

@[simp] theorem rowAt_rows_zero (t : Subtree) : rowAt 0 t.rows = [t] := by
  rw [rows_eq, rowAt_zero_cons]

theorem rows_eq_forest (t : Subtree) :
    t.rows = [t] :: forest Subtree.rows (t.children.map Prod.snd) := by
  rw [rows_eq, forest, List.foldr_map]

/-- The first row consists of the roots, and the others are those of the trees below. -/
theorem flatten_forest_rows (ts : List Subtree) :
    (forest rows ts).flatten = ts ++ (forest rows (kids ts)).flatten := by
  rw [flatten_forest fun t _ => rows_eq_forest t, List.map_id']
  rfl

/-- A further row of a tree comes from all its children. -/
theorem rowAt_rows_succ (t : Subtree) (k : Nat) :
    rowAt (k + 1) t.rows = t.children.flatMap fun x => rowAt k x.2.rows := by
  rw [rows_eq_forest, rowAt_succ_cons, rowAt_forest, List.flatMap_map]

end Subtree

end Vantage
