/-
**Where the division of a bucket can stop, and on what it works.**

Points pass through the levels of a branch one level at a time; at each level every bucket that
holds points is divided. The buckets that are divided lie within their levels and are not empty, and
nothing can go wrong but that some points of such a bucket belong to none of its parts. So the fault
that a branch reports says exactly where the division stopped.

Main definitions:

* `Level.Within`, `LevelsWithin` — the levels of a branch have the buckets that their numbers call
  for, and cuts for no others;
* `Vantage.Division`, `Branch.divisions` — the buckets that are divided on the way down;
* `Fault.IsStray` — a fault that points of a bucket within its level belong to no part.

Main results:

* `Branch.within_collate` — routing points keeps the levels of a branch within their sizes;
* `Branch.inRange_divisions` — **every bucket that is divided lies within its level and has
  points**;
* `Branch.collate_error` — **a branch can only report that points of such a bucket belong nowhere**.
-/

import Vantage.Proofs.NodeIntake

set_option relaxedAutoImplicit false
set_option autoImplicit false

namespace Vantage

variable {d : Metric} {parts number : Nat}

/-! ### The sizes of levels -/

/-- The level has the buckets that its number calls for, and cuts only for buckets that it has. -/
structure Level.Within (parts number : Nat) (level : Level) : Prop where
  buckets : level.buckets = parts ^ number
  frozen : ∀ bucket cuts, Keyed.get? bucket level.frozen = some cuts → bucket < level.buckets

/-- Levels that are numbered from `number` on have the buckets that their numbers call for. -/
def LevelsWithin (parts number : Nat) (levels : List Level) : Prop :=
  ∀ n (level : Level), levels[n]? = some level → level.Within parts (number + n)

theorem levelsWithin_nil : LevelsWithin parts number [] := by
  intro n level h
  simp at h

theorem levelsWithin_cons {level : Level} {levels : List Level} :
    LevelsWithin parts number (level :: levels) ↔
      level.Within parts number ∧ LevelsWithin parts (number + 1) levels := by
  constructor
  · intro h
    refine ⟨h 0 level rfl, fun n next hn => ?_⟩
    rw [Nat.add_assoc, Nat.add_comm 1 n]
    exact h (n + 1) next hn
  · rintro ⟨hfirst, hrest⟩ n next hn
    cases n with
    | zero =>
        obtain rfl := Option.some.inj hn
        exact hfirst
    | succ n =>
        rw [Nat.add_comm n 1, ← Nat.add_assoc]
        exact hrest n next hn

namespace Level

variable {vantage : UInt64} {level level' : Level} {bucket : Nat} {points : List Held}
  {bs out : Buckets}

/-- Dividing a bucket of the level keeps the level within its size. -/
theorem Within.split (h : level.Within parts number) (hbucket : bucket < parts ^ number)
    (hsplit : level.split d parts vantage number bucket points = .ok (level', out)) :
    level'.Within parts number := by
  obtain ⟨rfl, -, -⟩ := split_eq_ok hsplit
  refine ⟨h.buckets, fun b cuts hb => ?_⟩
  rw [Keyed.get?_set] at hb
  split at hb
  next heq =>
    rw [heq]
    exact hbucket.trans_eq h.buckets.symm
  next => exact h.frozen b cuts hb

theorem Within.splitAll (h : level.Within parts number) (hbs : ∀ x ∈ bs, x.1 < parts ^ number)
    (hsplit : splitAll d parts vantage number level bs = .ok (level', out)) :
    level'.Within parts number := by
  induction bs generalizing level out with
  | nil =>
      obtain ⟨rfl, -⟩ := Prod.mk.inj (Except.ok.inj hsplit)
      exact h
  | cons first rest ih =>
      obtain ⟨hfirst, hrest⟩ := List.forall_mem_cons.1 hbs
      obtain ⟨⟨mid, here⟩, hhere, hsplit⟩ := bind_eq_ok.1 hsplit
      obtain ⟨⟨last, there⟩, hthere, hsplit⟩ := bind_eq_ok.1 hsplit
      obtain ⟨rfl, -⟩ := Prod.mk.inj (Except.ok.inj hsplit)
      exact ih (h.split hfirst hhere) hrest hthere

/-- The parts of buckets of a level are buckets of the next level. -/
theorem Divides.lt_pow (hparts : 0 < parts) (h : level.Divides d parts vantage bs out)
    (hbs : ∀ x ∈ bs, x.1 < parts ^ number) : ∀ x ∈ out, x.1 < parts ^ (number + 1) := by
  intro x hx
  obtain ⟨p, hp⟩ := List.exists_mem_of_ne_nil _ (h.nonempty x hx)
  obtain ⟨y, hy, hyx, -⟩ := h.parent x hx p hp
  have hlt := hbs y hy
  rw [hyx] at hlt
  rw [Nat.pow_succ]
  exact Nat.lt_mul_of_div_lt hlt hparts

/-- A level reports a fault only when points of one of the buckets belong to none of its parts. -/
theorem splitAll_error {fault : Fault}
    (h : splitAll d parts vantage number level bs = .error fault) :
    ∃ x ∈ bs, ∃ stray, fault = .incompleteCollation number x.1 stray ∧
      0 < stray ∧ stray ≤ x.2.length := by
  induction bs generalizing level with
  | nil => cases h
  | cons first rest ih =>
      rcases bind_eq_error.1 h with h | ⟨⟨mid, here⟩, -, h⟩
      · rw [split_eq] at h
        dsimp only at h
        split at h
        next => cases h
        next hstray =>
          exact ⟨first, List.mem_cons_self, _, (Except.error.inj h).symm,
            Nat.pos_of_ne_zero hstray, List.countP_le_length⟩
      · rcases bind_eq_error.1 h with h | ⟨⟨last, there⟩, -, h⟩
        · obtain ⟨x, hx, hfault⟩ := ih h
          exact ⟨x, List.mem_cons_of_mem _ hx, hfault⟩
        · cases h

end Level

/-! ### The buckets that are divided -/

/-- A bucket that is to be divided: the number of its level, its own number, and its points. -/
structure Division where
  number : Nat
  bucket : Nat
  points : List Held

/-- The bucket lies within its level, the level is one of the branch, and there are points. -/
structure Division.InRange (parts levels : Nat) (x : Division) : Prop where
  number : x.number < levels
  bucket : x.bucket < parts ^ x.number
  points : x.points ≠ []

namespace Branch

/-- The buckets that are divided when points pass through levels, numbered from the given number
on, as far as the levels can divide their buckets. -/
def divisionsFrom (d : Metric) (parts : Nat) : Nat → List (Held × Level) → Buckets → List Division
  | _, [], _ => []
  | number, (vantage, level) :: rest, buckets =>
    buckets.map (fun x => ⟨number, x.1, x.2⟩) ++
      match level.splitAll d parts vantage.value number buckets with
      | .ok r => divisionsFrom d parts (number + 1) rest r.2
      | .error _ => []

variable {levels levels' : List Level} {vantage : List Held} {bs out : Buckets}

/-- **Every bucket that is divided lies within its level and has points.** -/
theorem inRange_divisionsFrom (hparts : 0 < parts) (hs : ∀ level ∈ levels, level.Sound d parts)
    (hbs : ∀ x ∈ bs, x.1 < parts ^ number) (hne : ∀ x ∈ bs, x.2 ≠ []) :
    ∀ x ∈ divisionsFrom d parts number (vantage.zip levels) bs,
      x.InRange parts (number + levels.length) := by
  induction levels generalizing vantage number bs with
  | nil =>
      intro x hx
      rw [List.zip_nil_right] at hx
      exact absurd hx (by simp [divisionsFrom])
  | cons level levels ih =>
      cases vantage with
      | nil =>
          intro x hx
          exact absurd hx (by simp [divisionsFrom])
      | cons v vantage =>
          obtain ⟨hlevel, hlevels⟩ := List.forall_mem_cons.1 hs
          intro x hx
          rw [List.length_cons]
          rcases List.mem_append.1 hx with hx | hx
          · obtain ⟨y, hy, rfl⟩ := List.mem_map.1 hx
            exact ⟨Nat.lt_add_of_pos_right (Nat.succ_pos _), hbs y hy, hne y hy⟩
          · -- the buckets of the levels below are the parts of those of this level
            split at hx
            next r hsplit =>
              obtain ⟨-, -, hdiv⟩ := Level.divides_splitAll hparts hlevel.length hsplit
              have hbelow := ih hlevels (hdiv.lt_pow hparts hbs) hdiv.nonempty x hx
              rwa [Nat.add_assoc, Nat.add_comm 1] at hbelow
            next => exact absurd hx List.not_mem_nil

/-- Levels report a fault only when points of a bucket that is divided belong to none of its
parts. -/
theorem collateFrom_error {zipped : List (Held × Level)} {fault : Fault}
    (h : collateFrom d parts number zipped bs = .error fault) :
    ∃ x ∈ divisionsFrom d parts number zipped bs, ∃ stray,
      fault = .incompleteCollation x.number x.bucket stray ∧
        0 < stray ∧ stray ≤ x.points.length := by
  induction zipped generalizing number bs with
  | nil => cases h
  | cons first rest ih =>
      obtain ⟨v, level⟩ := first
      rcases bind_eq_error.1 h with h | ⟨r, hsplit, h⟩
      · obtain ⟨x, hx, hfault⟩ := Level.splitAll_error h
        exact ⟨⟨number, x.1, x.2⟩, List.mem_append_left _ (List.mem_map_of_mem hx), hfault⟩
      · rcases bind_eq_error.1 h with h | ⟨_, -, h⟩
        · obtain ⟨x, hx, hfault⟩ := ih h
          refine ⟨x, List.mem_append_right _ ?_, hfault⟩
          rw [hsplit]
          exact hx
        · cases h

/-- Routing points keeps levels within their sizes. -/
theorem within_collateFrom (hparts : 0 < parts) (hlength : vantage.length = levels.length)
    (hs : ∀ level ∈ levels, level.Sound d parts) (hlevels : LevelsWithin parts number levels)
    (hbs : ∀ x ∈ bs, x.1 < parts ^ number)
    (h : collateFrom d parts number (vantage.zip levels) bs = .ok (levels', out)) :
    LevelsWithin parts number levels' := by
  induction levels generalizing vantage levels' number bs out with
  | nil =>
      obtain rfl := List.length_eq_zero_iff.1 hlength
      obtain ⟨rfl, -⟩ := Prod.mk.inj (Except.ok.inj h)
      exact levelsWithin_nil
  | cons level levels ih =>
      cases vantage with
      | nil => simp at hlength
      | cons v vantage =>
          obtain ⟨⟨first, mid⟩, hsplit, h⟩ := bind_eq_ok.1 h
          obtain ⟨⟨rest, last⟩, hrest, h⟩ := bind_eq_ok.1 h
          obtain ⟨rfl, -⟩ := Prod.mk.inj (Except.ok.inj h)
          obtain ⟨hlevel, hbelow⟩ := List.forall_mem_cons.1 hs
          obtain ⟨hfirst, hothers⟩ := levelsWithin_cons.1 hlevels
          obtain ⟨-, -, hdiv⟩ := Level.divides_splitAll hparts hlevel.length hsplit
          exact levelsWithin_cons.2 ⟨hfirst.splitAll hbs hsplit,
            ih (by simpa using hlength) hbelow hothers (hdiv.lt_pow hparts hbs) hrest⟩

/-! ### One branch -/

variable {κ : Type} {b b' : Branch Held κ} {incoming : List Held} {onward : Buckets}

/-- The buckets that are divided when points are routed through all levels of the branch. -/
def divisions (d : Metric) (parts : Nat) (b : Branch Held κ) (incoming : List Held) :
    List Division :=
  divisionsFrom d parts 0 (b.vantage.zip b.levels) (startOf incoming)

/-- All points start in the only bucket of the first level. -/
theorem startOf_lt (incoming : List Held) : ∀ x ∈ startOf incoming, x.1 < parts ^ 0 := by
  intro x hx
  rw [(mem_startOf hx).1]
  exact Nat.one_pos

theorem inRange_divisions (hparts : 0 < parts) (hs : ∀ level ∈ b.levels, level.Sound d parts)
    (incoming : List Held) :
    ∀ x ∈ b.divisions d parts incoming, x.InRange parts b.levels.length := by
  intro x hx
  have h := inRange_divisionsFrom hparts hs (startOf_lt incoming) (fun y hy => (mem_startOf hy).2) x
    hx
  rwa [Nat.zero_add] at h

theorem within_collate (hparts : 0 < parts) (hlength : b.vantage.length = b.levels.length)
    (hs : ∀ level ∈ b.levels, level.Sound d parts) (hlevels : LevelsWithin parts 0 b.levels)
    (h : b.collate d parts incoming = .ok (b', onward)) : LevelsWithin parts 0 b'.levels := by
  obtain ⟨⟨levels, buckets⟩, hcollate, h⟩ := bind_eq_ok.1 h
  obtain ⟨rfl, -⟩ := Prod.mk.inj (Except.ok.inj h)
  exact within_collateFrom hparts hlength hs hlevels (startOf_lt incoming) hcollate

theorem collate_error {fault : Fault} (h : b.collate d parts incoming = .error fault) :
    ∃ x ∈ b.divisions d parts incoming, ∃ stray,
      fault = .incompleteCollation x.number x.bucket stray ∧
        0 < stray ∧ stray ≤ x.points.length := by
  rcases bind_eq_error.1 h with h | ⟨_, -, h⟩
  · exact collateFrom_error h
  · cases h

/-- The levels of a new branch have the buckets that their numbers call for. -/
theorem within_new {shape : Shape} (hshape : shape.Sound) :
    LevelsWithin shape.branchFactor 0 (new shape : Branch Held κ).levels := by
  intro n level h
  simp only [new, List.getElem?_map, Option.map_eq_some_iff] at h
  obtain ⟨m, hm, rfl⟩ := h
  obtain ⟨hlt, rfl⟩ := List.getElem?_eq_some_iff.1 hm
  rw [List.length_range] at hlt
  refine ⟨?_, fun bucket cuts h => absurd h (by simp)⟩
  rw [List.getElem_range, Nat.zero_add]
  exact hshape.splits_eq hlt

end Branch

/-! ### Stray points -/

/-- Points of a bucket within its level belong to no part: the fault says so, and names the level,
the bucket and the number of the points. -/
def Fault.IsStray (shape : Shape) (fault : Fault) : Prop :=
  ∃ level bucket stray, fault = .incompleteCollation level bucket stray ∧
    level < shape.levelsPerNode ∧ bucket < shape.branchFactor ^ level ∧ 0 < stray

/-- What a sound branch reports is that points are stray. -/
theorem Branch.isStray_of_collate {κ : Type} {shape : Shape} {b : Branch Held κ}
    {below : κ → List UInt64} {incoming : List Held} {fault : Fault} (hshape : shape.Sound)
    (hb : b.Sound shape d Held.value below)
    (h : b.collate d shape.branchFactor incoming = .error fault) : fault.IsStray shape := by
  obtain ⟨x, hx, stray, rfl, hpos, -⟩ := collate_error h
  have hrange := inRange_divisions (Nat.lt_of_lt_of_le (by decide) hshape.branchFactor) hb.levels
    incoming x hx
  exact ⟨x.number, x.bucket, stray, rfl, hrange.number.trans_eq hb.length, hrange.bucket, hpos⟩

end Vantage
