/-
**How a branch routes points to its children.**

A point goes through the levels of a branch from bucket to bucket. That it belongs to a child is a
fact about the frozen cuts alone: at every level, the cuts of the bucket that the digits of the
child's index name so far put the point into the part that the next digit names. Frozen cuts stay,
so what was routed once stays routed.

Main definitions:

* `Level.Places`, `Branch.RoutesFrom` — where the cuts put a point, at one level and at all;
* `Level.CutInto`, `Level.Sound` — the cuts of a level have the right number; moreover they are in
  order, and they are numbers unless distances of both infinities had to be divided;
* `Level.Extends` — no frozen cuts have changed;
* `Level.Divides` — what a level makes of points collected in buckets.

Main results:

* `Level.divides_splitAll`, `Branch.routed_collateFrom` — **points that are routed go where the
  cuts put them, and none is lost**;
* `Level.exists_splitAll`, `Branch.exists_collateFrom` — with a sortable metric every point belongs
  somewhere.
-/

import Vantage.Branch
import Vantage.Proofs.BucketCuts
import Vantage.Proofs.KeyedLists
import Vantage.Proofs.MetricLaws
import Vantage.Proofs.Outcomes

set_option relaxedAutoImplicit false
set_option autoImplicit false

namespace Vantage

variable {d : Metric} {parts : Nat}

/-! ### One level -/

namespace Level

/-- The cuts of the bucket put a point at the given distance into the bucket `next` of the next
level. -/
def Places (level : Level) (parts next : Nat) (gap : Float) : Prop :=
  ∃ cuts, Keyed.get? (next / parts) level.frozen = some cuts ∧ part? cuts gap = some (next % parts)

/-- Frozen cuts divide a bucket into the given number of parts. -/
def CutInto (parts : Nat) (level : Level) : Prop :=
  ∀ bucket cuts, Keyed.get? bucket level.frozen = some cuts → cuts.length = parts - 1

/-- Frozen cuts divide a bucket into the given number of parts and are in order, as long as this
number is represented exactly; they are numbers unless both infinities occur as distances. -/
structure Sound (d : Metric) (parts : Nat) (level : Level) : Prop where
  length : level.CutInto parts
  ordered : parts < 2 ^ 53 → ∀ bucket cuts, Keyed.get? bucket level.frozen = some cuts →
    cuts.Pairwise InOrder
  isNumber : d.OneSided → ∀ bucket cuts, Keyed.get? bucket level.frozen = some cuts →
    ∀ cut ∈ cuts, cut.isNaN = false

/-- The cuts of the first level are frozen in the second. -/
def Extends (level level' : Level) : Prop :=
  ∀ bucket cuts, Keyed.get? bucket level.frozen = some cuts →
    Keyed.get? bucket level'.frozen = some cuts

theorem Extends.refl (level : Level) : level.Extends level := fun _ _ h => h

theorem Extends.trans {level₁ level₂ level₃ : Level} (h₁ : level₁.Extends level₂)
    (h₂ : level₂.Extends level₃) : level₁.Extends level₃ :=
  fun bucket cuts h => h₂ bucket cuts (h₁ bucket cuts h)

theorem Places.mono {level level' : Level} {next : Nat} {gap : Float} (h : level.Extends level')
    (hp : level.Places parts next gap) : level'.Places parts next gap := by
  obtain ⟨cuts, hcuts, hpart⟩ := hp
  exact ⟨cuts, h _ _ hcuts, hpart⟩

/-- A level without cuts. -/
theorem sound_of_frozen_nil (buckets : Nat) : Sound d parts { buckets } where
  length _ _ h := absurd h (by simp)
  ordered _ _ _ h := absurd h (by simp)
  isNumber _ _ _ h := absurd h (by simp)

/-- What a level makes of points collected in buckets: the buckets of the next level. -/
structure Divides (d : Metric) (parts : Nat) (vantage : UInt64) (level : Level)
    (bs out : Buckets) : Prop where
  perm : (out.flatMap Prod.snd).Perm (bs.flatMap Prod.snd)
  ascending : Keyed.Ascending bs → Keyed.Ascending out
  nonempty : ∀ x ∈ out, x.2 ≠ []
  parent : ∀ x ∈ out, ∀ p ∈ x.2, ∃ y ∈ bs, y.1 = x.1 / parts ∧ p ∈ y.2
  placed : ∀ x ∈ out, ∀ p ∈ x.2, level.Places parts x.1 (d vantage p.value)

variable {vantage : UInt64} {number bucket : Nat} {level level' : Level} {points : List Held}
  {out bs : Buckets}

/-- The cuts by which a bucket is divided. -/
abbrev cutsFor (d : Metric) (parts : Nat) (vantage : UInt64) (level : Level) (bucket : Nat)
    (points : List Held) : List Float :=
  level.cutsOf parts bucket (points.map fun p => d vantage p.value)

theorem length_cutsFor (hs : level.CutInto parts) :
    (level.cutsFor d parts vantage bucket points).length = parts - 1 := by
  unfold cutsFor cutsOf
  cases h : Keyed.get? bucket level.frozen with
  | none => exact length_cuts _ _
  | some cuts => exact hs bucket cuts h

theorem cutsFor_ordered (hs : level.Sound d parts) (hparts : parts < 2 ^ 53)
    (hgaps : ∀ p ∈ points, (d vantage p.value).isNaN = false) :
    (level.cutsFor d parts vantage bucket points).Pairwise InOrder := by
  unfold cutsFor cutsOf
  cases h : Keyed.get? bucket level.frozen with
  | none => exact cuts_inOrder hparts (List.forall_mem_map.2 hgaps)
  | some cuts => exact hs.ordered hparts bucket cuts h

theorem cutsFor_isNumber (hs : level.Sound d parts) (hd : d.OneSided)
    (hgaps : ∀ p ∈ points, (d vantage p.value).isNaN = false) :
    ∀ cut ∈ level.cutsFor d parts vantage bucket points, cut.isNaN = false := by
  unfold cutsFor cutsOf
  cases h : Keyed.get? bucket level.frozen with
  | some cuts => exact hs.isNumber hd bucket cuts h
  | none =>
      refine cuts_isNumber (List.forall_mem_map.2 hgaps) ?_
      simp only [List.forall_mem_map]
      exact hd.imp (fun hside p _ => hside _ _) fun hside p _ => hside _ _

/-- Dividing a bucket freezes its cuts; it succeeds when every point belongs to a part. -/
theorem split_eq (d : Metric) (parts : Nat) (vantage : UInt64) (number : Nat) (level : Level)
    (bucket : Nat) (points : List Held) :
    level.split d parts vantage number bucket points =
      let cuts := level.cutsFor d parts vantage bucket points
      let stray := points.countP fun p => (part? cuts (d vantage p.value)).isNone
      if stray = 0 then
        .ok ({ level with frozen := Keyed.set bucket cuts level.frozen },
          Keyed.gather (points.filterMap fun p =>
            (part? cuts (d vantage p.value)).map fun part => (bucket * parts + part, p)))
      else .error (.incompleteCollation number bucket stray) := by
  have hzip : ∀ f : Held → Option Nat,
      points.zip (points.map f) = points.map fun p => (p, f p) := fun f => by
    rw [List.zip_eq_zipWith, List.zipWith_map_right, List.zipWith_self]
  simp only [split, List.map_map, hzip, List.countP_map, List.filterMap_map]
  rfl

theorem cutInto_set (hs : level.CutInto parts) : CutInto parts { level with
    frozen := Keyed.set bucket (level.cutsFor d parts vantage bucket points) level.frozen } := by
  intro b cuts h
  rw [Keyed.get?_set] at h
  split at h
  next =>
    obtain rfl := Option.some.inj h
    exact length_cutsFor hs
  next => exact hs b cuts h

theorem sound_set (hs : level.Sound d parts)
    (hgaps : ∀ p ∈ points, (d vantage p.value).isNaN = false) :
    Sound d parts { level with
      frozen := Keyed.set bucket (level.cutsFor d parts vantage bucket points) level.frozen } where
  length := cutInto_set hs.length
  ordered hparts b cuts h := by
    rw [Keyed.get?_set] at h
    split at h
    next =>
      obtain rfl := Option.some.inj h
      exact cutsFor_ordered hs hparts hgaps
    next => exact hs.ordered hparts b cuts h
  isNumber hd b cuts h := by
    rw [Keyed.get?_set] at h
    split at h
    next =>
      obtain rfl := Option.some.inj h
      exact cutsFor_isNumber hs hd hgaps
    next => exact hs.isNumber hd b cuts h

theorem extends_set : level.Extends { level with
    frozen := Keyed.set bucket (level.cutsFor d parts vantage bucket points) level.frozen } := by
  intro b cuts h
  rw [Keyed.get?_set]
  split
  next heq =>
    subst heq
    rw [cutsFor, cutsOf, h, Option.getD_some]
  next => exact h

/-- A bucket that is divided has its cuts frozen, each of its points belongs to a part, and the
points stand under the numbers of their parts. -/
theorem split_eq_ok (h : level.split d parts vantage number bucket points = .ok (level', out)) :
    level' = { level with
      frozen := Keyed.set bucket (level.cutsFor d parts vantage bucket points) level.frozen } ∧
    (∀ p ∈ points, ∃ part,
      part? (level.cutsFor d parts vantage bucket points) (d vantage p.value) = some part) ∧
    out = Keyed.gather (points.filterMap fun p =>
      (part? (level.cutsFor d parts vantage bucket points) (d vantage p.value)).map fun part =>
        (bucket * parts + part, p)) := by
  rw [split_eq] at h
  dsimp only at h
  split at h
  next hstray =>
    obtain ⟨rfl, rfl⟩ := Prod.mk.inj (Except.ok.inj h)
    refine ⟨rfl, fun p hp => ?_, rfl⟩
    have := List.countP_eq_zero.1 hstray p hp
    exact Option.ne_none_iff_exists'.1 (by simpa using this)
  next => cases h

theorem sound_split (hs : level.Sound d parts)
    (h : level.split d parts vantage number bucket points = .ok (level', out)) :
    level'.Sound d parts := by
  obtain ⟨rfl, hpart, -⟩ := split_eq_ok h
  exact sound_set hs fun p hp => isNaN_of_part? (hpart p hp).choose_spec

/-- **One bucket.** Its points go to the buckets of the next level that their parts name. -/
theorem divides_split (hparts : 0 < parts) (hs : level.CutInto parts)
    (h : level.split d parts vantage number bucket points = .ok (level', out)) :
    level'.CutInto parts ∧ level.Extends level' ∧
      level'.Divides d parts vantage [(bucket, points)] out := by
  obtain ⟨rfl, hpart, rfl⟩ := split_eq_ok h
  refine ⟨cutInto_set hs, extends_set, ?_, ?_, ?_, ?_, ?_⟩
  · refine (Keyed.perm_gather _).trans (.of_eq ?_)
    rw [List.map_filterMap]
    simp only [List.flatMap_cons, List.flatMap_nil, List.append_nil]
    refine Eq.trans (List.filterMap_congr fun p hp => ?_) List.filterMap_some
    obtain ⟨part, hp⟩ := hpart p hp
    rw [hp]
    rfl
  · intro _
    exact Keyed.ascending_gather _
  · intro x hx
    exact Keyed.gather_ne_nil hx
  all_goals
    intro x hx p hp
    obtain ⟨q, hq, hqx⟩ := List.mem_filterMap.1 (Keyed.mem_gather hx hp)
    obtain ⟨part, hpart, heq⟩ := Option.map_eq_some_iff.1 hqx
    obtain ⟨hnext, rfl⟩ := Prod.mk.inj heq
    have hlt : part < parts := by
      have := part?_lt hpart
      rw [length_cutsFor hs] at this
      omega
    have hdiv : x.1 / parts = bucket := by
      rw [← hnext, Nat.mul_comm, Nat.mul_add_div hparts, Nat.div_eq_of_lt hlt, Nat.add_zero]
    have hmod : x.1 % parts = part := by
      rw [← hnext, Nat.mul_comm, Nat.mul_add_mod, Nat.mod_eq_of_lt hlt]
  · exact ⟨(bucket, points), List.mem_cons_self, hdiv.symm, hq⟩
  · refine ⟨_, ?_, hmod.symm ▸ hpart⟩
    rw [Keyed.get?_set, if_pos hdiv]

theorem sound_splitAll (hs : level.Sound d parts)
    (h : splitAll d parts vantage number level bs = .ok (level', out)) :
    level'.Sound d parts := by
  induction bs generalizing level out with
  | nil =>
      obtain ⟨rfl, -⟩ := Prod.mk.inj (Except.ok.inj h)
      exact hs
  | cons first rest ih =>
      obtain ⟨⟨mid, here⟩, hhere, h⟩ := bind_eq_ok.1 h
      obtain ⟨⟨last, there⟩, hthere, h⟩ := bind_eq_ok.1 h
      obtain ⟨rfl, -⟩ := Prod.mk.inj (Except.ok.inj h)
      exact ih (sound_split hs hhere) hthere

/-- **All buckets of a level.** -/
theorem divides_splitAll (hparts : 0 < parts) (hs : level.CutInto parts)
    (h : splitAll d parts vantage number level bs = .ok (level', out)) :
    level'.CutInto parts ∧ level.Extends level' ∧ level'.Divides d parts vantage bs out := by
  induction bs generalizing level out with
  | nil =>
      obtain ⟨rfl, rfl⟩ := Prod.mk.inj (Except.ok.inj h)
      exact ⟨hs, .refl _, .refl _, id, by simp, by simp, by simp⟩
  | cons first rest ih =>
      obtain ⟨bucket, points⟩ := first
      obtain ⟨⟨mid, here⟩, hhere, h⟩ := bind_eq_ok.1 h
      obtain ⟨⟨last, there⟩, hthere, h⟩ := bind_eq_ok.1 h
      obtain ⟨rfl, rfl⟩ := Prod.mk.inj (Except.ok.inj h)
      obtain ⟨hs₁, hext₁, hdiv₁⟩ := divides_split hparts hs hhere
      obtain ⟨hs₂, hext₂, hdiv₂⟩ := ih hs₁ hthere
      refine ⟨hs₂, hext₁.trans hext₂, ?_, ?_, ?_, ?_, ?_⟩
      · simp only [List.flatMap_append, List.flatMap_cons]
        refine (hdiv₁.perm.append hdiv₂.perm).trans (.of_eq ?_)
        simp
      · intro hasc
        obtain ⟨hfirst, hrest⟩ := List.pairwise_cons.1 hasc
        refine List.pairwise_append.2
          ⟨hdiv₁.ascending (List.pairwise_singleton _ _), hdiv₂.ascending hrest, ?_⟩
        intro x hx y hy
        obtain ⟨p, hp⟩ := List.exists_mem_of_ne_nil _ (hdiv₁.nonempty x hx)
        obtain ⟨q, hq⟩ := List.exists_mem_of_ne_nil _ (hdiv₂.nonempty y hy)
        obtain ⟨x', hx', hxdiv, -⟩ := hdiv₁.parent x hx p hp
        obtain ⟨y', hy', hydiv, -⟩ := hdiv₂.parent y hy q hq
        obtain rfl := List.mem_singleton.1 hx'
        -- the bucket of `x` comes before the bucket of `y`, so all its parts do
        have hlt : x.1 / parts < y.1 / parts := by
          rw [← hxdiv, ← hydiv]
          exact hfirst y' hy'
        exact Nat.lt_of_div_lt_div hlt
      · intro x hx
        rcases List.mem_append.1 hx with hx | hx
        · exact hdiv₁.nonempty x hx
        · exact hdiv₂.nonempty x hx
      · intro x hx p hp
        rcases List.mem_append.1 hx with hx | hx
        · obtain ⟨y, hy, h⟩ := hdiv₁.parent x hx p hp
          obtain rfl := List.mem_singleton.1 hy
          exact ⟨_, List.mem_cons_self, h⟩
        · obtain ⟨y, hy, h⟩ := hdiv₂.parent x hx p hp
          exact ⟨y, List.mem_cons_of_mem _ hy, h⟩
      · intro x hx p hp
        rcases List.mem_append.1 hx with hx | hx
        · exact (hdiv₁.placed x hx p hp).mono hext₂
        · exact hdiv₂.placed x hx p hp

/-- **With a sortable metric every point belongs to a part.** -/
theorem exists_split (hparts : 2 ≤ parts) (hs : level.Sound d parts) (hd : d.Sortable)
    (vantage : UInt64) (number bucket : Nat) (points : List Held) :
    ∃ r, level.split d parts vantage number bucket points = .ok r := by
  have hlength : (level.cutsFor d parts vantage bucket points).length = parts - 1 :=
    length_cutsFor hs.length
  have hne : level.cutsFor d parts vantage bucket points ≠ [] := fun hnil => by
    rw [hnil, List.length_nil] at hlength
    omega
  rw [split_eq]
  refine ⟨_, if_pos (List.countP_eq_zero.2 fun p _ => ?_)⟩
  have := part?_isSome hne
    (cutsFor_isNumber hs hd.oneSided fun q _ => hd.isNumber vantage q.value)
    (hd.isNumber vantage p.value)
  simpa [Option.isSome_iff_ne_none] using this

theorem exists_splitAll (hparts : 2 ≤ parts) (hs : level.Sound d parts) (hd : d.Sortable)
    (vantage : UInt64) (number : Nat) (bs : Buckets) :
    ∃ r, splitAll d parts vantage number level bs = .ok r := by
  induction bs generalizing level with
  | nil => exact ⟨_, rfl⟩
  | cons first rest ih =>
      obtain ⟨⟨mid, here⟩, hhere⟩ := exists_split hparts hs hd vantage number first.1 first.2
      obtain ⟨⟨last, there⟩, hthere⟩ := ih (sound_split hs hhere)
      exact ⟨(last, here ++ there), by simp [splitAll, hhere, hthere]⟩

end Level

/-! ### All levels -/

namespace Branch

/-- The cuts of the given levels, with the distances of a point to their vantage points, put the
point where the index says. `index / parts ^ k`, with `k` further levels to come, is the number of
the bucket of the next level. -/
def RoutesFrom (parts index : Nat) : List (Level × Float) → Prop
  | [] => True
  | (level, gap) :: rest =>
    level.Places parts (index / Nat.pow parts rest.length) gap ∧ RoutesFrom parts index rest

/-- Routes that the cuts of some levels give are given by levels that extend them. -/
theorem RoutesFrom.mono {index : Nat} {levels levels' : List Level} {gaps : List Float}
    (hlevels : List.Forall₂ Level.Extends levels levels')
    (h : RoutesFrom parts index (levels.zip gaps)) : RoutesFrom parts index (levels'.zip gaps) := by
  induction hlevels generalizing gaps with
  | nil => exact h
  | @cons level level' rest rest' hext hrest ih =>
      cases gaps with
      | nil => exact h
      | cons gap gaps =>
          obtain ⟨hfirst, hbelow⟩ := h
          have hlength : (rest'.zip gaps).length = (rest.zip gaps).length := by
            rw [List.length_zip, List.length_zip, hrest.length_eq]
          refine ⟨?_, ih hbelow⟩
          change level'.Places parts (index / Nat.pow parts (rest'.zip gaps).length) gap
          rw [hlength]
          exact hfirst.mono hext

/-- What the levels of a branch make of points collected in buckets. -/
structure Routed (d : Metric) (parts : Nat) (vantage : List Held) (levels : List Level)
    (bs out : Buckets) : Prop where
  perm : (out.flatMap Prod.snd).Perm (bs.flatMap Prod.snd)
  ascending : Keyed.Ascending bs → Keyed.Ascending out
  nonempty : (∀ x ∈ bs, x.2 ≠ []) → ∀ x ∈ out, x.2 ≠ []
  parent : ∀ x ∈ out, ∀ p ∈ x.2, ∃ y ∈ bs, y.1 = x.1 / Nat.pow parts levels.length ∧ p ∈ y.2
  routes : ∀ x ∈ out, ∀ p ∈ x.2,
    RoutesFrom parts x.1 (levels.zip (vantage.map fun v => d v.value p.value))

variable {vantage : List Held} {levels levels' : List Level} {number : Nat} {bs out : Buckets}

theorem sound_collateFrom (hlength : vantage.length = levels.length)
    (hs : ∀ level ∈ levels, level.Sound d parts)
    (h : collateFrom d parts number (vantage.zip levels) bs = .ok (levels', out)) :
    ∀ level ∈ levels', level.Sound d parts := by
  induction levels generalizing vantage levels' number bs out with
  | nil =>
      obtain rfl := List.length_eq_zero_iff.1 hlength
      obtain ⟨rfl, -⟩ := Prod.mk.inj (Except.ok.inj h)
      exact hs
  | cons level levels ih =>
      cases vantage with
      | nil => simp at hlength
      | cons v vantage =>
          obtain ⟨⟨first, mid⟩, hsplit, h⟩ := bind_eq_ok.1 h
          obtain ⟨⟨rest, last⟩, hrest, h⟩ := bind_eq_ok.1 h
          obtain ⟨rfl, -⟩ := Prod.mk.inj (Except.ok.inj h)
          obtain ⟨hfirst, hbelow⟩ := List.forall_mem_cons.1 hs
          have hlength' : vantage.length = levels.length := by simpa using hlength
          exact List.forall_mem_cons.2
            ⟨Level.sound_splitAll hfirst hsplit, ih hlength' hbelow hrest⟩

/-- **Points go where the cuts put them, and none is lost.** -/
theorem routed_collateFrom (hparts : 0 < parts) (hlength : vantage.length = levels.length)
    (hs : ∀ level ∈ levels, level.CutInto parts)
    (h : collateFrom d parts number (vantage.zip levels) bs = .ok (levels', out)) :
    (∀ level ∈ levels', level.CutInto parts) ∧ List.Forall₂ Level.Extends levels levels' ∧
      Routed d parts vantage levels' bs out := by
  induction levels generalizing vantage levels' number bs with
  | nil =>
      obtain rfl := List.length_eq_zero_iff.1 hlength
      obtain ⟨rfl, rfl⟩ := Prod.mk.inj (Except.ok.inj h)
      refine ⟨hs, .nil, .refl _, id, id, fun x hx p hp => ⟨x, hx, ?_, hp⟩, fun _ _ _ _ => trivial⟩
      exact (Nat.div_one x.1).symm
  | cons level levels ih =>
      cases vantage with
      | nil => simp at hlength
      | cons v vantage =>
          have hlength' : vantage.length = levels.length := by simpa using hlength
          obtain ⟨⟨first, mid⟩, hsplit, h⟩ := bind_eq_ok.1 h
          obtain ⟨⟨rest, last⟩, hrest, h⟩ := bind_eq_ok.1 h
          obtain ⟨rfl, rfl⟩ := Prod.mk.inj (Except.ok.inj h)
          obtain ⟨hfirst, hbelow⟩ := List.forall_mem_cons.1 hs
          obtain ⟨hs₁, hext₁, hdiv⟩ := Level.divides_splitAll hparts hfirst hsplit
          obtain ⟨hs₂, hext₂, hrouted⟩ := ih hlength' hbelow hrest
          refine ⟨List.forall_mem_cons.2 ⟨hs₁, hs₂⟩, .cons hext₁ hext₂, ?_, ?_, ?_, ?_, ?_⟩
          · exact hrouted.perm.trans hdiv.perm
          · exact fun hasc => hrouted.ascending (hdiv.ascending hasc)
          · exact fun _ => hrouted.nonempty hdiv.nonempty
          · intro x hx p hp
            obtain ⟨y, hy, hyx, hpy⟩ := hrouted.parent x hx p hp
            obtain ⟨z, hz, hzy, hpz⟩ := hdiv.parent y hy p hpy
            refine ⟨z, hz, ?_, hpz⟩
            rw [hzy, hyx, Nat.div_div_eq_div_mul]
            rfl
          · intro x hx p hp
            obtain ⟨y, hy, hyx, hpy⟩ := hrouted.parent x hx p hp
            refine ⟨?_, hrouted.routes x hx p hp⟩
            have hplaced := hdiv.placed y hy p hpy
            rw [hyx] at hplaced
            -- the levels to come are as many as there are vantage points left
            simpa [List.length_zip, hlength', hext₂.length_eq] using hplaced

/-- With a sortable metric every point is routed to some child. -/
theorem exists_collateFrom (hparts : 2 ≤ parts) (hd : d.Sortable) (vantage : List Held)
    {levels : List Level} (hs : ∀ level ∈ levels, level.Sound d parts) (number : Nat)
    (bs : Buckets) : ∃ r, collateFrom d parts number (vantage.zip levels) bs = .ok r := by
  induction levels generalizing vantage number bs with
  | nil => exact ⟨([], bs), by rw [List.zip_nil_right]; rfl⟩
  | cons level levels ih =>
      cases vantage with
      | nil => exact ⟨([], bs), rfl⟩
      | cons v vantage =>
          obtain ⟨hfirst, hrest⟩ := List.forall_mem_cons.1 hs
          obtain ⟨⟨first, mid⟩, hsplit⟩ :=
            Level.exists_splitAll hparts hfirst hd v.value number bs
          obtain ⟨⟨rest, last⟩, hcollate⟩ := ih vantage hrest (number + 1) mid
          exact ⟨(first :: rest, last), by simp [collateFrom, hsplit, hcollate]⟩

end Branch

end Vantage
