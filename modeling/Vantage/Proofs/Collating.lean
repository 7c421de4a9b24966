/-
**Routing divides the points of a batch among the children.**

Points pass through the levels of a branch; what the buckets of a level hold follows from what the
buckets of the level before hold, bucket by bucket. A point is stray in its bucket when its distance
is neither at most one of the cuts nor above the last. Routing fails exactly when some level has a
bucket with stray points, and then reports the first such bucket of the first such level. Otherwise
every point goes to one child, and because the cuts on its way are frozen, every later point with
its fingerprint goes there too.

Main definitions:

* `Vantage.compares` — a distance compares with the cuts as it must to belong to a part;
* `Level.strays`, `Level.pass` — the stray points of a bucket, and what the next level holds;
* `Branch.contents`, `Branch.strays` — the same at every level of a branch;
* `Branch.Complete`, `Branch.Precedes` — a branch with all its vantage points, and a branch later
  on;
* `Branch.Collated` — what routing gives when it succeeds.

Main results:

* `Branch.collateFrom_cases` — **routing stops at the first bucket with stray points**, and
  otherwise gives what the last level holds;
* `Branch.RoutesFrom.unique` — the cuts send a point to one child at most;
* `Branch.exists_collateFrom_again` — points that are sent somewhere by frozen cuts are not stray;
* `Branch.collate_partitions` — **what routing does with every batch**.
-/

import Vantage.Proofs.NodeIntake

set_option relaxedAutoImplicit false
set_option autoImplicit false

namespace Vantage

variable {d : Metric} {parts : Nat}

/-! ### What stands under a number -/

namespace Keyed

variable {α : Type} {k : Nat} {l l₁ l₂ : List (Nat × List α)}

/-- The values that are collected under a number. -/
def under (k : Nat) (l : List (Nat × List α)) : List α :=
  (l.filter fun x => x.1 = k).flatMap Prod.snd

/-- A value is among those that are collected under a number. -/
def Holds (k : Nat) (a : α) (l : List (Nat × List α)) : Prop := ∃ x ∈ l, x.1 = k ∧ a ∈ x.2

theorem under_append : under k (l₁ ++ l₂) = under k l₁ ++ under k l₂ := by
  simp [under]

theorem under_eq_nil (h : ∀ x ∈ l, x.1 ≠ k) : under k l = [] := by
  have hnone : l.filter (fun x => x.1 = k) = [] := by simpa using h
  rw [under, hnone, List.flatMap_nil]

theorem under_cons (x : Nat × List α) :
    under k (x :: l) = if x.1 = k then x.2 ++ under k l else under k l := by
  by_cases h : x.1 = k <;> simp [under, h]

/-- Where the numbers ascend, a list is what is collected under its number. -/
theorem under_of_mem (hl : Ascending l) {x : Nat × List α} (hx : x ∈ l) : under x.1 l = x.2 := by
  induction l with
  | nil => cases hx
  | cons y l ih =>
      obtain ⟨hfirst, hrest⟩ := List.pairwise_cons.1 hl
      rw [under_cons]
      rcases List.mem_cons.1 hx with rfl | hx
      · rw [if_pos rfl, under_eq_nil fun z hz => Nat.ne_of_gt (hfirst z hz), List.append_nil]
      · rw [if_neg (Nat.ne_of_lt (hfirst x hx)), ih hrest hx]

theorem mem_under {a : α} : a ∈ under k l ↔ Holds k a l := by
  simp only [under, Holds, List.mem_flatMap, List.mem_filter, decide_eq_true_eq, and_assoc]

/-- Under each number stand exactly the values that were gathered under it, in their order. -/
theorem under_gather (k : Nat) (l : List (Nat × α)) :
    under k (gather l) = (l.filter fun x => x.1 = k).map Prod.snd := by
  rw [← getD_get?_gather]
  have hasc := ascending_gather l
  cases h : get? k (gather l) with
  | some as => exact under_of_mem hasc (mem_of_get? h)
  | none =>
      refine under_eq_nil fun x hx hk => ?_
      have hget := get?_of_mem hasc (show (k, x.2) ∈ gather l from hk ▸ hx)
      rw [h] at hget
      cases hget

end Keyed

/-! ### Points that belong nowhere -/

/-- A distance is at most one of the cuts, or above the last. -/
def compares (cuts : List Float) (gap : Float) : Bool :=
  cuts.any (gap ≤ ·) || cuts.getLast?.any (· < gap)

/-- The distances that belong to a part are those that compare with the cuts. -/
theorem isSome_part? (cuts : List Float) (gap : Float) :
    (part? cuts gap).isSome = compares cuts gap := by
  unfold part? compares
  cases h : cuts.findIdx? (gap ≤ ·) with
  | some j =>
      have hany : cuts.any (gap ≤ ·) = true := by
        rw [← List.findIdx?_isSome, h]
        rfl
      rw [hany]
      rfl
  | none =>
      have hany : cuts.any (gap ≤ ·) = false := by
        rw [← List.findIdx?_isSome, h]
        rfl
      rw [hany]
      cases cuts.getLast? with
      | none => rfl
      | some last => by_cases hlast : last < gap <;> simp [hlast]

namespace Level

variable {vantage : UInt64} {number bucket : Nat} {level level' : Level} {points : List Held}
  {bs out : Buckets} {contents : Nat → List Held}

/-- How many points of a bucket do not compare with its cuts. -/
def strays (d : Metric) (parts : Nat) (vantage : UInt64) (level : Level) (bucket : Nat)
    (points : List Held) : Nat :=
  points.countP fun p =>
    !compares (level.cutsFor d parts vantage bucket points) (d vantage p.value)

/-- What the buckets of the next level hold: the points of the bucket that the number names without
its last digit, as far as they belong to the part that this digit names. -/
def pass (d : Metric) (parts : Nat) (vantage : UInt64) (level : Level)
    (contents : Nat → List Held) (next : Nat) : List Held :=
  let points := contents (next / parts)
  points.filter fun p =>
    part? (level.cutsFor d parts vantage (next / parts) points) (d vantage p.value) =
      some (next % parts)

@[simp] theorem strays_nil (d : Metric) (parts : Nat) (vantage : UInt64) (level : Level)
    (bucket : Nat) : level.strays d parts vantage bucket [] = 0 := rfl

/-- A bucket is divided unless it has stray points, whose number is then reported. -/
theorem split_cases (d : Metric) (parts : Nat) (vantage : UInt64) (number : Nat) (level : Level)
    (bucket : Nat) (points : List Held) :
    (level.strays d parts vantage bucket points = 0 ∧
      ∃ r, level.split d parts vantage number bucket points = .ok r) ∨
    (0 < level.strays d parts vantage bucket points ∧
      level.split d parts vantage number bucket points =
        .error (.incompleteCollation number bucket
          (level.strays d parts vantage bucket points))) := by
  have hstrays : (points.countP fun p =>
      (part? (level.cutsFor d parts vantage bucket points) (d vantage p.value)).isNone) =
      level.strays d parts vantage bucket points := by
    refine List.countP_congr fun p _ => ?_
    rw [← isSome_part?, Option.not_isSome]
  rw [split_eq]
  dsimp only
  rw [hstrays]
  by_cases h : level.strays d parts vantage bucket points = 0
  · exact .inl ⟨h, _, if_pos h⟩
  · exact .inr ⟨Nat.pos_of_ne_zero h, if_neg h⟩

/-- Freezing the cuts of a bucket leaves the cuts of all others alone. -/
theorem cutsFor_set {cuts : List Float} {other : Nat} (hne : other ≠ bucket) :
    cutsFor d parts vantage { level with frozen := Keyed.set bucket cuts level.frozen } other
      points = level.cutsFor d parts vantage other points := by
  unfold cutsFor cutsOf
  rw [Keyed.get?_set, if_neg hne]

/-- What a bucket is divided into. -/
theorem under_split
    (hlength : (level.cutsFor d parts vantage bucket points).length < parts)
    (h : level.split d parts vantage number bucket points = .ok (level', out)) (next : Nat) :
    Keyed.under next out = if next / parts = bucket then
      points.filter fun p => part? (level.cutsFor d parts vantage bucket points)
        (d vantage p.value) = some (next % parts) else [] := by
  obtain ⟨-, -, rfl⟩ := split_eq_ok h
  rw [Keyed.under_gather, List.filter_filterMap, List.map_filterMap]
  -- a number has its last digit from the part, and the others from the bucket
  have hdigits : ∀ (p : Held) (part : Nat), part? (level.cutsFor d parts vantage bucket points)
      (d vantage p.value) = some part →
        (bucket * parts + part = next ↔ next / parts = bucket ∧ part = next % parts) := by
    intro p part hpart
    have hlt : part < parts := (part?_lt hpart).trans_le hlength
    have hnext := Nat.div_add_mod' next parts
    constructor
    · rintro rfl
      rw [Nat.mul_comm, Nat.mul_add_div (by omega), Nat.div_eq_of_lt hlt, Nat.mul_add_mod,
        Nat.mod_eq_of_lt hlt]
      exact ⟨Nat.add_zero _, rfl⟩
    · rintro ⟨rfl, rfl⟩
      exact hnext
  split
  next heq =>
    rw [← List.filterMap_eq_filter]
    refine List.filterMap_congr fun p _ => ?_
    cases hpart : part? (level.cutsFor d parts vantage bucket points) (d vantage p.value) with
    | none => simp [Option.guard, hpart]
    | some part => simp [Option.guard, Option.filter, hpart, hdigits p part hpart, heq]
  next hne =>
    refine List.filterMap_eq_nil_iff.2 fun p _ => ?_
    cases hpart : part? (level.cutsFor d parts vantage bucket points) (d vantage p.value) with
    | none => rfl
    | some part => simp [Option.filter, hdigits p part hpart, hne]

/-- What buckets are divided into is what the next level holds. -/
theorem under_splitAll (hparts : 0 < parts) (hs : level.CutInto parts) (hbs : Keyed.Ascending bs)
    (h : splitAll d parts vantage number level bs = .ok (level', out)) (next : Nat) :
    Keyed.under next out = level.pass d parts vantage (fun k => Keyed.under k bs) next := by
  induction bs generalizing level level' out with
  | nil =>
      obtain ⟨-, rfl⟩ := Prod.mk.inj (Except.ok.inj h)
      rfl
  | cons first rest ih =>
      obtain ⟨bucket, points⟩ := first
      obtain ⟨⟨mid, here⟩, hhere, h⟩ := bind_eq_ok.1 h
      obtain ⟨⟨last, there⟩, hthere, h⟩ := bind_eq_ok.1 h
      obtain ⟨-, rfl⟩ := Prod.mk.inj (Except.ok.inj h)
      obtain ⟨hfirst, hrest⟩ := List.pairwise_cons.1 hbs
      obtain ⟨hs', -, -⟩ := divides_split hparts hs hhere
      have hlength : (level.cutsFor d parts vantage bucket points).length < parts := by
        rw [length_cutsFor hs]
        omega
      have hsplit := under_split hlength hhere next
      obtain ⟨rfl, -, -⟩ := split_eq_ok hhere
      rw [Keyed.under_append, hsplit, ih hs' hrest hthere, pass, pass,
        Keyed.under_cons]
      by_cases hnext : next / parts = bucket
      · -- no other bucket has the number, so the next level gets nothing from the others
        have hnone : Keyed.under bucket rest = [] :=
          Keyed.under_eq_nil fun x hx => Nat.ne_of_gt (hfirst x hx)
        rw [hnext, if_pos rfl, if_pos rfl, hnone, List.filter_nil, List.append_nil,
          List.append_nil]
      · rw [if_neg hnext, if_neg (Ne.symm hnext), cutsFor_set hnext, List.nil_append]

/-- **A level stops at its first bucket with stray points**, or divides all buckets. -/
theorem splitAll_cases (d : Metric) (parts : Nat) (vantage : UInt64) (number : Nat)
    (level : Level) (hbs : Keyed.Ascending bs) :
    ((∀ k, level.strays d parts vantage k (Keyed.under k bs) = 0) ∧
      ∃ r, splitAll d parts vantage number level bs = .ok r) ∨
    ∃ k, 0 < level.strays d parts vantage k (Keyed.under k bs) ∧
      (∀ k' < k, level.strays d parts vantage k' (Keyed.under k' bs) = 0) ∧
      splitAll d parts vantage number level bs = .error (.incompleteCollation number k
        (level.strays d parts vantage k (Keyed.under k bs))) := by
  induction bs generalizing level with
  | nil => exact .inl ⟨fun k => rfl, _, rfl⟩
  | cons first rest ih =>
      obtain ⟨bucket, points⟩ := first
      obtain ⟨hfirst, hrest⟩ := List.pairwise_cons.1 hbs
      have hhead : Keyed.under bucket ((bucket, points) :: rest) = points :=
        Keyed.under_of_mem hbs List.mem_cons_self
      rcases split_cases d parts vantage number level bucket points with
        ⟨hnone, ⟨mid, here⟩, hhere⟩ | ⟨hsome, herror⟩
      · have hmid : ∀ k, k ≠ bucket → mid.strays d parts vantage k (Keyed.under k rest) =
            level.strays d parts vantage k (Keyed.under k ((bucket, points) :: rest)) := by
          intro k hk
          obtain ⟨rfl, -, -⟩ := split_eq_ok hhere
          rw [Keyed.under_cons, if_neg (Ne.symm hk), strays, cutsFor_set hk]
          rfl
        have hbelow : ∀ k, (k ≠ bucket → mid.strays d parts vantage k (Keyed.under k rest) = 0) →
            level.strays d parts vantage k (Keyed.under k ((bucket, points) :: rest)) = 0 := by
          intro k hk
          by_cases heq : k = bucket
          · rw [heq, hhead, hnone]
          · rw [← hmid k heq, hk heq]
        rcases ih mid hrest with ⟨hall, ⟨last, there⟩, hthere⟩ | ⟨k, hpos, hlt, herror⟩
        · exact .inl ⟨fun k => hbelow k fun _ => hall k, (last, here ++ there),
            by simp [splitAll, hhere, hthere]⟩
        · have hne : k ≠ bucket := by
            rintro rfl
            rw [Keyed.under_eq_nil fun x hx => Nat.ne_of_gt (hfirst x hx), strays_nil] at hpos
            cases hpos
          refine .inr ⟨k, hmid k hne ▸ hpos, fun k' hk' => hbelow k' fun _ => hlt k' hk', ?_⟩
          simp [splitAll, hhere, herror, hmid k hne]
      · refine .inr ⟨bucket, hhead.symm ▸ hsome, fun k hk => ?_, ?_⟩
        · rw [Keyed.under_eq_nil, strays_nil]
          intro x hx
          rcases List.mem_cons.1 hx with rfl | hx
          · exact Nat.ne_of_gt hk
          · exact Nat.ne_of_gt (hk.trans (hfirst x hx))
        · rw [hhead]
          simp [splitAll, herror]

end Level

/-! ### All levels -/

namespace Branch

variable {number : Nat} {zs : List (Held × Level)} {bs out : Buckets}
  {contents : Nat → List Held}

/-- What the buckets hold after points have passed through the first `n` levels. -/
def contentsAt (d : Metric) (parts : Nat) (zs : List (Held × Level)) (contents : Nat → List Held)
    (n : Nat) : Nat → List Held :=
  (zs.take n).foldl (fun contents z => z.2.pass d parts z.1.value contents) contents

/-- How many stray points a bucket of level `n` has. -/
def straysAt (d : Metric) (parts : Nat) (zs : List (Held × Level)) (contents : Nat → List Held)
    (n bucket : Nat) : Nat :=
  zs[n]?.elim 0 fun z =>
    z.2.strays d parts z.1.value bucket (contentsAt d parts zs contents n bucket)

/-- The bucket is the first of the first level to have stray points. -/
structure FirstStray (strays : Nat → Nat → Nat) (n bucket : Nat) : Prop where
  pos : 0 < strays n bucket
  before : ∀ n' bucket', n' < n ∨ n' = n ∧ bucket' < bucket → strays n' bucket' = 0

/-- There is but one such bucket. -/
theorem FirstStray.unique {strays : Nat → Nat → Nat} {n bucket n' bucket' : Nat}
    (h : FirstStray strays n bucket) (h' : FirstStray strays n' bucket') :
    n = n' ∧ bucket = bucket' := by
  have hbefore := h.before n' bucket'
  have hbefore' := h'.before n bucket
  have hpos := h.pos
  have hpos' := h'.pos
  omega

/-- **Routing stops at the first bucket of the first level that has stray points**; without stray
points it gives what the buckets hold after all levels. -/
theorem collateFrom_cases (d : Metric) (hparts : 0 < parts) (hs : ∀ z ∈ zs, z.2.CutInto parts)
    (hbs : Keyed.Ascending bs) (number : Nat) :
    ((∀ n bucket, straysAt d parts zs (fun k => Keyed.under k bs) n bucket = 0) ∧
      ∃ levels out, collateFrom d parts number zs bs = .ok (levels, out) ∧
        ∀ k, Keyed.under k out =
          contentsAt d parts zs (fun k => Keyed.under k bs) zs.length k) ∨
    ∃ n bucket, FirstStray (straysAt d parts zs fun k => Keyed.under k bs) n bucket ∧
      collateFrom d parts number zs bs = .error (.incompleteCollation (number + n) bucket
        (straysAt d parts zs (fun k => Keyed.under k bs) n bucket)) := by
  induction zs generalizing number bs with
  | nil => exact .inl ⟨fun n bucket => rfl, [], bs, rfl, fun k => rfl⟩
  | cons z zs ih =>
      obtain ⟨v, level⟩ := z
      obtain ⟨hlevel, hrest⟩ := List.forall_mem_cons.1 hs
      rcases Level.splitAll_cases d parts v.value number level hbs with
        ⟨hnone, ⟨first, mid⟩, hsplit⟩ | ⟨bucket, hpos, hlt, herror⟩
      · obtain ⟨-, -, hdiv⟩ := Level.divides_splitAll hparts hlevel hsplit
        have hmid : (fun k => Keyed.under k mid) =
            level.pass d parts v.value fun k => Keyed.under k bs :=
          funext fun k => Level.under_splitAll hparts hlevel hbs hsplit k
        rcases ih hrest (hdiv.ascending hbs) (number + 1) with
          ⟨hall, levels, out, hok, hout⟩ | ⟨n, bucket, hstray, herror⟩
        · rw [hmid] at hall hout
          refine .inl ⟨fun n bucket => ?_, first :: levels, out, ?_, hout⟩
          · cases n with
            | zero => exact hnone bucket
            | succ n => exact hall n bucket
          · simp [collateFrom, hsplit, hok]
        · rw [hmid] at hstray herror
          refine .inr ⟨n + 1, bucket, ⟨hstray.pos, fun n' bucket' h => ?_⟩, ?_⟩
          · cases n' with
            | zero => exact hnone bucket'
            | succ n' => exact hstray.before n' bucket' (by omega)
          · rw [← Nat.add_assoc, Nat.add_right_comm]
            simp only [collateFrom, hsplit, ok_bind, herror, error_bind]
            rfl
      · refine .inr ⟨0, bucket, ⟨hpos, fun n' bucket' h => ?_⟩, ?_⟩
        · obtain ⟨rfl, hbefore⟩ := h.resolve_left (Nat.not_lt_zero n')
          exact hlt bucket' hbefore
        · simp only [collateFrom, herror, error_bind]
          rfl

/-- What the buckets hold is taken from what they held at first, in that order. -/
theorem sublist_contentsAt {incoming : List Held} (h : ∀ k, (contents k).Sublist incoming)
    (n k : Nat) : (contentsAt d parts zs contents n k).Sublist incoming := by
  induction zs generalizing contents n with
  | nil => simpa [contentsAt] using h k
  | cons z zs ih =>
      cases n with
      | zero => exact h k
      | succ n => exact ih (fun k => List.filter_sublist.trans (h (k / parts))) n

end Branch

/-! ### Points that are routed again -/

/-- The cuts of a bucket put a point into one bucket of the next level at most. -/
theorem Level.Places.unique {level : Level} {next next' : Nat} {gap : Float}
    (h : level.Places parts next gap) (h' : level.Places parts next' gap)
    (hbucket : next / parts = next' / parts) : next = next' := by
  obtain ⟨cuts, hcuts, hpart⟩ := h
  obtain ⟨cuts', hcuts', hpart'⟩ := h'
  rw [hbucket] at hcuts
  obtain rfl := Option.some.inj (hcuts.symm.trans hcuts')
  have hdigit : next % parts = next' % parts := Option.some.inj (hpart.symm.trans hpart')
  calc next = parts * (next / parts) + next % parts := (Nat.div_add_mod _ _).symm
    _ = parts * (next' / parts) + next' % parts := by rw [hbucket, hdigit]
    _ = next' := Nat.div_add_mod _ _

/-- Points that frozen cuts put somewhere are not stray, so their buckets are divided. -/
theorem Level.exists_splitAll_again {vantage : UInt64} {level : Level} {bs : Buckets}
    (hbs : Keyed.Ascending bs) (number : Nat)
    (h : ∀ x ∈ bs, ∀ p ∈ x.2, ∃ next, next / parts = x.1 ∧
      level.Places parts next (d vantage p.value)) :
    ∃ r, level.splitAll d parts vantage number bs = .ok r := by
  have hnone : ∀ k, level.strays d parts vantage k (Keyed.under k bs) = 0 := by
    refine fun k => List.countP_eq_zero.2 fun p hp => ?_
    obtain ⟨x, hx, rfl, hpx⟩ := Keyed.mem_under.1 hp
    obtain ⟨next, hnext, cuts, hcuts, hpart⟩ := h x hx p hpx
    rw [← isSome_part?, cutsFor, cutsOf, ← hnext, hcuts, Option.getD_some, hpart]
    simp
  rcases splitAll_cases d parts vantage number level hbs with ⟨-, hok⟩ | ⟨k, hpos, -⟩
  · exact hok
  · exact absurd (hnone k) (Nat.ne_of_gt hpos)

namespace Branch

variable {number : Nat} {vantage : List Held} {levels : List Level} {bs : Buckets}

/-- **The cuts send a point to one child at most.** -/
theorem RoutesFrom.unique {route : List (Level × Float)} {index index' : Nat}
    (h : RoutesFrom parts index route) (h' : RoutesFrom parts index' route)
    (hstart : index / parts ^ route.length = index' / parts ^ route.length) : index = index' := by
  induction route with
  | nil => simpa using hstart
  | cons first rest ih =>
      obtain ⟨hfirst, hrest⟩ := h
      obtain ⟨hfirst', hrest'⟩ := h'
      refine ih hrest hrest' (hfirst.unique hfirst' ?_)
      rw [List.length_cons, pow_succ] at hstart
      rwa [Nat.div_div_eq_div_mul, Nat.div_div_eq_div_mul]

/-- What a route says of the first level, and of the levels below. -/
theorem routesFrom_zip_cons {index : Nat} {level : Level} {gap : Float} {gaps : List Float}
    (hlength : gaps.length = levels.length) :
    RoutesFrom parts index ((level :: levels).zip (gap :: gaps)) ↔
      level.Places parts (index / parts ^ levels.length) gap ∧
        RoutesFrom parts index (levels.zip gaps) := by
  rw [List.zip_cons_cons, RoutesFrom, List.length_zip, hlength, Nat.min_self]
  rfl

/-- **Points that frozen cuts send somewhere are routed**, whatever the cuts of other buckets. -/
theorem exists_collateFrom_again (d : Metric) (hparts : 0 < parts)
    (hlength : vantage.length = levels.length) (hs : ∀ level ∈ levels, level.CutInto parts)
    (hbs : Keyed.Ascending bs) (number : Nat)
    (h : ∀ x ∈ bs, ∀ p ∈ x.2, ∃ index, index / parts ^ levels.length = x.1 ∧
      RoutesFrom parts index (levels.zip (vantage.map fun v => d v.value p.value))) :
    ∃ r, collateFrom d parts number (vantage.zip levels) bs = .ok r := by
  induction levels generalizing vantage number bs with
  | nil =>
      obtain rfl := List.length_eq_zero_iff.1 hlength
      exact ⟨_, rfl⟩
  | cons level levels ih =>
      cases vantage with
      | nil => simp at hlength
      | cons v vantage =>
          have hlength' : vantage.length = levels.length := by simpa using hlength
          obtain ⟨hlevel, hbelow⟩ := List.forall_mem_cons.1 hs
          have hroute : ∀ x ∈ bs, ∀ p ∈ x.2, ∃ index,
              index / parts ^ levels.length / parts = x.1 ∧
              level.Places parts (index / parts ^ levels.length) (d v.value p.value) ∧
              RoutesFrom parts index (levels.zip (vantage.map fun v => d v.value p.value)) := by
            intro x hx p hp
            obtain ⟨index, hindex, hroutes⟩ := h x hx p hp
            obtain ⟨hfirst, hrest⟩ :=
              (routesFrom_zip_cons ((List.length_map _).trans hlength')).1 hroutes
            refine ⟨index, ?_, hfirst, hrest⟩
            rw [Nat.div_div_eq_div_mul, ← pow_succ]
            exact hindex
          obtain ⟨⟨first, mid⟩, hsplit⟩ :=
            Level.exists_splitAll_again hbs number fun x hx p hp => by
              obtain ⟨index, hindex, hplaces, -⟩ := hroute x hx p hp
              exact ⟨_, hindex, hplaces⟩
          obtain ⟨-, hext, hdiv⟩ := Level.divides_splitAll hparts hlevel hsplit
          have hmid : ∀ y ∈ mid, ∀ p ∈ y.2, ∃ index, index / parts ^ levels.length = y.1 ∧
              RoutesFrom parts index (levels.zip (vantage.map fun v => d v.value p.value)) := by
            intro y hy p hp
            obtain ⟨x, hx, hxy, hpx⟩ := hdiv.parent y hy p hp
            obtain ⟨index, hindex, hplaces, hrest⟩ := hroute x hx p hpx
            have hsame := (hplaces.mono hext).unique (hdiv.placed y hy p hp) (hindex.trans hxy)
            exact ⟨index, hsame, hrest⟩
          obtain ⟨⟨rest, last⟩, hcollate⟩ :=
            ih hlength' hbelow (hdiv.ascending hbs) (number + 1) hmid
          exact ⟨(first :: rest, last), by simp [collateFrom, hsplit, hcollate]⟩

/-! ### One branch -/

variable {κ : Type} {shape : Shape} {b b' later later' : Branch Held κ}
  {incoming batch : List Held} {out out' : Buckets}

/-- A branch that has all its vantage points and levels. Whatever its frozen cuts are, they have the
right number. -/
structure Complete (shape : Shape) (b : Branch Held κ) : Prop where
  vantage : b.vantage.length = shape.levelsPerNode
  levels : b.levels.length = shape.levelsPerNode
  cuts : ∀ level ∈ b.levels, level.CutInto shape.branchFactor

/-- A branch later on: the vantage points have the same fingerprints, and cuts that were frozen are
frozen. -/
structure Precedes (b later : Branch Held κ) : Prop where
  vantage : later.vantage.map Held.value = b.vantage.map Held.value
  levels : List.Forall₂ Level.Extends b.levels later.levels

/-- What the buckets hold after a batch has passed through the first `level` levels of a branch; at
first all points are in bucket zero. -/
def contents (d : Metric) (shape : Shape) (b : Branch Held κ) (incoming : List Held)
    (level : Nat) : Nat → List Held :=
  contentsAt d shape.branchFactor (b.vantage.zip b.levels)
    (fun bucket => if bucket = 0 then incoming else []) level

/-- How many stray points a bucket of a level has. -/
def strays (d : Metric) (shape : Shape) (b : Branch Held κ) (incoming : List Held)
    (level bucket : Nat) : Nat :=
  straysAt d shape.branchFactor (b.vantage.zip b.levels)
    (fun bucket => if bucket = 0 then incoming else []) level bucket

/-- What a branch gives when it has routed a batch: a later branch, and the points under the numbers
of children. -/
structure Collated (d : Metric) (shape : Shape) (b : Branch Held κ) (incoming : List Held)
    (b' : Branch Held κ) (out : Buckets) : Prop where
  complete : b'.Complete shape
  precedes : b.Precedes b'
  /-- Each child has one list at most. -/
  ascending : Keyed.Ascending out
  /-- Every point is in one list, once for each time that it came. -/
  perm : (out.flatMap Prod.snd).Perm incoming
  nonempty : ∀ x ∈ out, x.2 ≠ []
  inRange : ∀ x ∈ out, x.1 < shape.branchFactor ^ shape.levelsPerNode
  contents : ∀ x ∈ out, x.2 = b.contents d shape incoming shape.levelsPerNode x.1
  /-- The points of a list are in the order in which they came. -/
  order : ∀ x ∈ out, x.2.Sublist incoming

theorem under_startOf (incoming : List Held) :
    (fun k => Keyed.under k (startOf incoming)) = fun k => if k = 0 then incoming else [] := by
  funext k
  cases incoming with
  | nil => simp [startOf, Keyed.under]
  | cons p rest => cases k <;> simp [startOf, Keyed.under]

theorem collate_eq_ok : b.collate d parts incoming = .ok (b', out) ↔
    ∃ levels, collateFrom d parts 0 (b.vantage.zip b.levels) (startOf incoming) =
      .ok (levels, out) ∧ b' = { b with levels } := by
  constructor
  · intro h
    obtain ⟨⟨levels, buckets⟩, hcollate, h⟩ := bind_eq_ok.1 h
    obtain ⟨rfl, rfl⟩ := Prod.mk.inj (Except.ok.inj h)
    exact ⟨levels, hcollate, rfl⟩
  · rintro ⟨levels, hcollate, rfl⟩
    exact bind_eq_ok.2 ⟨_, hcollate, rfl⟩

namespace Complete

theorem cutInto (hb : b.Complete shape) :
    ∀ z ∈ b.vantage.zip b.levels, z.2.CutInto shape.branchFactor :=
  fun z hz => hb.cuts z.2 (List.of_mem_zip hz).2

theorem length_zip (hb : b.Complete shape) :
    (b.vantage.zip b.levels).length = shape.levelsPerNode := by
  rw [List.length_zip, hb.vantage, hb.levels, Nat.min_self]

/-- A branch routes a batch, or reports the first bucket with stray points. -/
theorem collate_cases (hb : b.Complete shape) (hparts : 0 < shape.branchFactor) (d : Metric)
    (incoming : List Held) :
    ((∀ level bucket, b.strays d shape incoming level bucket = 0) ∧
      ∃ r, b.collate d shape.branchFactor incoming = .ok r) ∨
    ∃ level bucket, FirstStray (b.strays d shape incoming) level bucket ∧
      b.collate d shape.branchFactor incoming = .error (.incompleteCollation level bucket
        (b.strays d shape incoming level bucket)) := by
  have hcases := collateFrom_cases d hparts hb.cutInto (ascending_startOf incoming) 0
  rw [under_startOf] at hcases
  rcases hcases with ⟨hnone, levels, out, hok, -⟩ | ⟨level, bucket, hstray, herror⟩
  · exact .inl ⟨hnone, ({ b with levels }, out), collate_eq_ok.2 ⟨levels, hok, rfl⟩⟩
  · rw [Nat.zero_add] at herror
    exact .inr ⟨level, bucket, hstray, bind_eq_error.2 (.inl herror)⟩

/-- Where the levels send the points of a batch. -/
theorem routed (hb : b.Complete shape) (hparts : 0 < shape.branchFactor)
    (h : b.collate d shape.branchFactor incoming = .ok (b', out)) :
    b'.Complete shape ∧ b.Precedes b' ∧
      Routed d shape.branchFactor b.vantage b'.levels (startOf incoming) out := by
  obtain ⟨levels, hcollate, rfl⟩ := collate_eq_ok.1 h
  obtain ⟨hcuts, hext, hrouted⟩ :=
    routed_collateFrom hparts (hb.vantage.trans hb.levels.symm) hb.cuts hcollate
  exact ⟨⟨hb.vantage, hext.length_eq.symm.trans hb.levels, hcuts⟩, ⟨rfl, hext⟩, hrouted⟩

/-- **What a branch gives when it has routed a batch.** -/
theorem collated (hb : b.Complete shape) (hparts : 0 < shape.branchFactor)
    (h : b.collate d shape.branchFactor incoming = .ok (b', out)) :
    b.Collated d shape incoming b' out := by
  obtain ⟨hb', hprecedes, hrouted⟩ := hb.routed hparts h
  have hasc := hrouted.ascending (ascending_startOf incoming)
  have hnonempty := hrouted.nonempty fun x hx => (mem_startOf hx).2
  have hcontents : ∀ x ∈ out, x.2 = b.contents d shape incoming shape.levelsPerNode x.1 := by
    intro x hx
    obtain ⟨levels, hcollate, -⟩ := collate_eq_ok.1 h
    have hcases := collateFrom_cases d hparts hb.cutInto (ascending_startOf incoming) 0
    rw [under_startOf, hb.length_zip] at hcases
    rcases hcases with ⟨-, levels', out', hok, hout⟩ | ⟨level, bucket, -, herror⟩
    · obtain ⟨-, rfl⟩ := Prod.mk.inj (Except.ok.inj (hcollate.symm.trans hok))
      rw [← Keyed.under_of_mem hasc hx, hout]
      rfl
    · cases hcollate.symm.trans herror
  refine ⟨hb', hprecedes, hasc, hrouted.perm.trans (.of_eq (flatMap_startOf incoming)), hnonempty,
    fun x hx => ?_, hcontents, fun x hx => ?_⟩
  · obtain ⟨p, hp⟩ := List.exists_mem_of_ne_nil _ (hnonempty x hx)
    obtain ⟨y, hy, hyx, -⟩ := hrouted.parent x hx p hp
    rw [(mem_startOf hy).1, hb'.levels] at hyx
    exact (Nat.div_eq_zero_iff_lt (Nat.pow_pos hparts)).1 hyx.symm
  · rw [hcontents x hx]
    refine sublist_contentsAt (fun k => ?_) _ _
    split
    · exact .refl _
    · exact List.nil_sublist _

end Complete

namespace Precedes

theorem refl (b : Branch Held κ) : b.Precedes b :=
  ⟨rfl, List.forall₂_same.2 fun level _ => .refl level⟩

/-- Vantage points with the same fingerprints are at the same distances from points with the same
fingerprint. -/
theorem gaps_eq (h : b.Precedes later) {p q : Held} (hvalue : q.value = p.value) :
    later.vantage.map (fun v => d v.value q.value) =
      b.vantage.map fun v => d v.value p.value := by
  have hmap := congrArg (List.map fun v => d v p.value) h.vantage
  rw [List.map_map, List.map_map] at hmap
  rw [hvalue]
  exact hmap

/-- Where a point has been sent, later cuts send every point with its fingerprint. -/
theorem routesFrom (hb : b.Complete shape) (hparts : 0 < shape.branchFactor)
    (h : b.collate d shape.branchFactor incoming = .ok (b', out)) (hlater : b'.Precedes later)
    {x : Nat × List Held} (hx : x ∈ out) {p q : Held} (hp : p ∈ x.2) (hvalue : q.value = p.value) :
    RoutesFrom shape.branchFactor x.1
      (later.levels.zip (later.vantage.map fun v => d v.value q.value)) := by
  obtain ⟨levels, -, rfl⟩ := collate_eq_ok.1 h
  obtain ⟨-, -, hrouted⟩ := hb.routed hparts h
  rw [hlater.gaps_eq hvalue]
  exact (hrouted.routes x hx p hp).mono hlater.levels

/-- **Points with one fingerprint go to one child**, in whatever batches they come. -/
theorem same_child (hb : b.Complete shape) (hparts : 0 < shape.branchFactor)
    (h : b.collate d shape.branchFactor incoming = .ok (b', out)) (hlater : b'.Precedes later)
    (hcomplete : later.Complete shape)
    (h' : later.collate d shape.branchFactor batch = .ok (later', out'))
    {x y : Nat × List Held} (hx : x ∈ out) (hy : y ∈ out') {p q : Held} (hp : p ∈ x.2)
    (hq : q ∈ y.2) (hvalue : q.value = p.value) : x.1 = y.1 := by
  obtain ⟨-, hprecedes, hrouted⟩ := hcomplete.routed hparts h'
  have hfirst := (routesFrom hb hparts h hlater hx hp hvalue).mono hprecedes.levels
  have hsecond := hrouted.routes y hy q hq
  refine hfirst.unique hsecond ?_
  have hlength : (later'.levels.zip (later.vantage.map fun v => d v.value q.value)).length =
      shape.levelsPerNode := by
    rw [List.length_zip, List.length_map, hcomplete.vantage, ← hprecedes.levels.length_eq,
      hcomplete.levels, Nat.min_self]
  rw [hlength, Nat.div_eq_of_lt ((hb.collated hparts h).inRange x hx),
    Nat.div_eq_of_lt ((hcomplete.collated hparts h').inRange y hy)]

/-- Points whose fingerprints have been routed before can be routed again. -/
theorem exists_collate_again (hb : b.Complete shape) (hparts : 0 < shape.branchFactor)
    (h : b.collate d shape.branchFactor incoming = .ok (b', out)) (hlater : b'.Precedes later)
    (hcomplete : later.Complete shape)
    (hbatch : ∀ q ∈ batch, ∃ p ∈ incoming, q.value = p.value) :
    ∃ r, later.collate d shape.branchFactor batch = .ok r := by
  have hcollated := hb.collated hparts h
  obtain ⟨⟨levels, buckets⟩, hcollate⟩ := exists_collateFrom_again d hparts
    (hcomplete.vantage.trans hcomplete.levels.symm) hcomplete.cuts (ascending_startOf batch) 0
    fun y hy q hq => by
      have hmem : q ∈ batch := by
        rw [← flatMap_startOf batch]
        exact List.mem_flatMap.2 ⟨y, hy, hq⟩
      obtain ⟨p, hp, hvalue⟩ := hbatch q hmem
      obtain ⟨x, hx, hpx⟩ := List.mem_flatMap.1 (hcollated.perm.mem_iff.2 hp)
      refine ⟨x.1, ?_, routesFrom hb hparts h hlater hx hpx hvalue⟩
      rw [(mem_startOf hy).1, hcomplete.levels, Nat.div_eq_of_lt (hcollated.inRange x hx)]
  exact ⟨_, collate_eq_ok.2 ⟨levels, hcollate, rfl⟩⟩

end Precedes

/-- **Routing divides every batch among the children**, for every metric and whatever cuts are
frozen. It fails exactly when some bucket of some level has points whose distances are neither at
most one of its cuts nor above the last, and then names the first level with such a bucket, the
first such bucket of it, and the number of these points. Otherwise every point goes to one child,
and later batches send the points with its fingerprint there too; a batch of such points can always
be routed. -/
theorem collate_partitions (hparts : 2 ≤ shape.branchFactor) (hb : b.Complete shape) (d : Metric)
    (incoming : List Held) :
    ((∃ fault, b.collate d shape.branchFactor incoming = .error fault) ↔
      ∃ level bucket, 0 < b.strays d shape incoming level bucket) ∧
    (∀ fault, b.collate d shape.branchFactor incoming = .error fault ↔
      ∃ level bucket, FirstStray (b.strays d shape incoming) level bucket ∧
        fault = .incompleteCollation level bucket (b.strays d shape incoming level bucket)) ∧
    ∀ b' out, b.collate d shape.branchFactor incoming = .ok (b', out) →
      b.Collated d shape incoming b' out ∧
      ∀ later : Branch Held κ, b'.Precedes later → later.Complete shape → ∀ batch,
        ((∀ q ∈ batch, ∃ p ∈ incoming, q.value = p.value) →
          ∃ r, later.collate d shape.branchFactor batch = .ok r) ∧
        ∀ later' out', later.collate d shape.branchFactor batch = .ok (later', out') →
          ∀ p ∈ incoming, ∀ q ∈ batch, q.value = p.value →
            ∀ k, Keyed.Holds k q out' ↔ Keyed.Holds k p out := by
  have hpos : 0 < shape.branchFactor := Nat.lt_of_lt_of_le (by decide) hparts
  have hcases := hb.collate_cases hpos d incoming
  refine ⟨⟨?_, ?_⟩, fun fault => ⟨?_, ?_⟩, fun b' out h => ⟨hb.collated hpos h,
    fun later hlater hcomplete batch => ⟨hlater.exists_collate_again hb hpos h hcomplete,
      fun later' out' h' p hp q hq hvalue k => ?_⟩⟩⟩
  · rintro ⟨fault, hfault⟩
    rcases hcases with ⟨-, r, hok⟩ | ⟨level, bucket, hstray, -⟩
    · cases hok.symm.trans hfault
    · exact ⟨level, bucket, hstray.pos⟩
  · rintro ⟨level, bucket, hstray⟩
    rcases hcases with ⟨hnone, -⟩ | ⟨level', bucket', -, herror⟩
    · exact absurd (hnone level bucket) (Nat.ne_of_gt hstray)
    · exact ⟨_, herror⟩
  · intro hfault
    rcases hcases with ⟨-, r, hok⟩ | ⟨level, bucket, hstray, herror⟩
    · cases hok.symm.trans hfault
    · exact ⟨level, bucket, hstray, Except.error.inj (hfault.symm.trans herror)⟩
  · rintro ⟨level, bucket, hstray, rfl⟩
    rcases hcases with ⟨hnone, -⟩ | ⟨level', bucket', hstray', herror⟩
    · exact absurd (hnone level bucket) (Nat.ne_of_gt hstray.pos)
    · obtain ⟨rfl, rfl⟩ := hstray.unique hstray'
      exact herror
  · have hout := hb.collated hpos h
    have hout' := hcomplete.collated hpos h'
    constructor
    · rintro ⟨y, hy, rfl, hqy⟩
      obtain ⟨x, hx, hpx⟩ := List.mem_flatMap.1 (hout.perm.mem_iff.2 hp)
      exact ⟨x, hx, Precedes.same_child hb hpos h hlater hcomplete h' hx hy hpx hqy hvalue, hpx⟩
    · rintro ⟨x, hx, rfl, hpx⟩
      obtain ⟨y, hy, hqy⟩ := List.mem_flatMap.1 (hout'.perm.mem_iff.2 hq)
      exact ⟨y, hy, (Precedes.same_child hb hpos h hlater hcomplete h' hx hy hpx hqy hvalue).symm,
        hqy⟩

/-- A branch with a cut that is not a number, in the second bucket of the second level: two points
that get there are stray. Points that get elsewhere are routed, and two of them are routed again. -/
theorem collate_partitions_frozen :
    ∃ (b b' : Branch Held Nat) (out : Buckets) (hold : UInt64 → Held),
      (∀ x, (hold x).value = x) ∧ b.Complete { levelsPerNode := 2 } ∧
      b.levels.map Level.frozen = [[], [(1, [Float.nan])]] ∧
      b.collate hamming 2 ([1, 2, 7, 15, 1].map hold) = .error (.incompleteCollation 1 1 2) ∧
      FirstStray (b.strays hamming { levelsPerNode := 2 } ([1, 2, 7, 15, 1].map hold)) 1 1 ∧
      b.collate hamming 2 ([1, 2, 1, 4, 8].map hold) = .ok (b', out) ∧
      out = [(0, [1, 1, 8].map hold), (1, [2, 4].map hold)] ∧
      b.Collated hamming { levelsPerNode := 2 } ([1, 2, 1, 4, 8].map hold) b' out ∧
      ∃ r, b'.collate hamming 2 ([4, 1].map hold) = .ok r := by
  let hold : UInt64 → Held := fun x => ⟨x.toNat, ⟨0, x, true⟩⟩
  let b : Branch Held Nat :=
    { fanout := 4, vantage := [hold 0, hold 9],
      levels := [{ buckets := 1 }, { buckets := 2, frozen := [(1, [Float.nan])] }], children := [] }
  have hb : b.Complete { levelsPerNode := 2 } := by
    refine ⟨rfl, rfl, fun level hlevel bucket cuts h => ?_⟩
    rcases List.mem_pair.1 hlevel with rfl | rfl
    · cases h
    · rw [Keyed.get?_cons] at h
      split at h <;> cases h
      rfl
  have hparts : 2 ≤ ({ levelsPerNode := 2 } : Shape).branchFactor := by decide
  obtain ⟨-, hstray, -⟩ := collate_partitions hparts hb hamming ([1, 2, 7, 15, 1].map hold)
  obtain ⟨-, -, hrouted⟩ := collate_partitions hparts hb hamming ([1, 2, 1, 4, 8].map hold)
  have herror : b.collate hamming 2 ([1, 2, 7, 15, 1].map hold) =
      .error (.incompleteCollation 1 1 2) := by
    have hrun : ((b.collate hamming 2 ([1, 2, 7, 15, 1].map hold)).map fun _ => ()) =
        .error (.incompleteCollation 1 1 2) := by
      decide +kernel
    rcases h : b.collate hamming 2 ([1, 2, 7, 15, 1].map hold) with fault | r
    · rw [h] at hrun
      cases hrun
      rfl
    · rw [h] at hrun
      cases hrun
  have hout : (b.collate hamming 2 ([1, 2, 1, 4, 8].map hold)).map Prod.snd =
      .ok [(0, [1, 1, 8].map hold), (1, [2, 4].map hold)] := by
    decide +kernel
  rcases h : b.collate hamming 2 ([1, 2, 1, 4, 8].map hold) with fault | ⟨b', out⟩
  · rw [h] at hout
    cases hout
  · rw [h] at hout
    obtain ⟨hcollated, hlater⟩ := hrouted b' out h
    obtain ⟨level, bucket, hfirst, hfault⟩ := (hstray _).1 herror
    obtain ⟨rfl, rfl, -⟩ := Fault.incompleteCollation.inj hfault
    have hbatch : ∀ q ∈ [4, 1].map hold, ∃ p ∈ [1, 2, 1, 4, 8].map hold, q.value = p.value := by
      decide
    exact ⟨b, b', out, hold, fun _ => rfl, hb, rfl, herror, hfirst, h, Except.ok.inj hout,
      hcollated, (hlater b' (.refl b') hcollated.complete _).1 hbatch⟩

end Branch

end Vantage
