/-
**Generated ids do not repeat.**

The fields of a generated id do not overlap, so its low bits are those of the counter whatever the
clock and the random word are. The counter goes up by one with every id, and its low bits start over
after `2 ^ 16` ids; until then they keep the ids apart. An index that takes no more entries than
that, all of them under generated ids, has one entry for each.

Main definitions:

* `Index.Ask`, `Index.ask`, `Index.askAll` — what an index is asked for while it only grows;
* `Index.Ask.stamps` — the readings for the ids that are generated on the way.

Main results:

* `Stamp.toNat_idAt` — **the fields of an id**;
* `Mint.getElem?_issue` — an id is made of its readings and its place in the run;
* `Mint.nodup_issue` — **as long as the low bits of the counter do not start over, all ids differ**;
* `Index.exists_askAll` — an index has entries for the ids that it had and those that are generated;
* `Index.generated_ids_differ` — **an index that grows by generated ids loses no entry**.
-/

import Vantage.Proofs.SavedIndex

set_option relaxedAutoImplicit false
set_option autoImplicit false

namespace Vantage

/-! ### The fields of an id -/

/-- The upper half of a number of 32 bits. -/
theorem land_upper_half {n : ℕ} (h : n < 2 ^ 32) : n &&& 0xffff0000 = (n / 2 ^ 16) <<< 16 := by
  have hmask : (0xffff0000 : ℕ) = (2 ^ 16 - 1) <<< 16 := rfl
  refine Nat.eq_of_testBit_eq fun i => ?_
  rw [hmask, Nat.testBit_and, Nat.testBit_shiftLeft, Nat.testBit_shiftLeft,
    Nat.testBit_two_pow_sub_one, Nat.testBit_div_two_pow]
  by_cases hlow : 16 ≤ i
  · rw [Nat.sub_add_cancel hlow]
    by_cases hhigh : i < 32
    · have hmiddle : i - 16 < 16 := by omega
      simp [hlow, hmiddle]
    · have hzero : n.testBit i = false :=
        Nat.testBit_lt_two_pow (h.trans_le (Nat.pow_le_pow_right (by norm_num) (by omega)))
      simp [hzero]
  · simp [hlow]

/-- **The fields of an id** are the low half of the clock, the upper half of the random word and the
low quarter of the count; none reaches into another. -/
theorem Stamp.toNat_idAt (stamp : Stamp) (count : UInt64) :
    (stamp.idAt count).toUInt64.toNat =
      stamp.millis.toNat % 2 ^ 32 * 2 ^ 32 +
        (stamp.random.toNat / 2 ^ 16 * 2 ^ 16 + count.toNat % 2 ^ 16) := by
  have hmillis : (stamp.millis <<< 32).toNat = (stamp.millis.toNat % 2 ^ 32) <<< 32 := by
    rw [UInt64.toNat_shiftLeft, Nat.shiftLeft_eq, Nat.shiftLeft_eq]
    change stamp.millis.toNat * 2 ^ 32 % 2 ^ 64 = _
    omega
  have hrandom : (stamp.random.toUInt64 &&& 0xffff0000).toNat =
      (stamp.random.toNat / 2 ^ 16) <<< 16 :=
    (UInt64.toNat_and _ _).trans (land_upper_half stamp.random.toNat_lt)
  have hcount : (count &&& 0xffff).toNat = count.toNat % 2 ^ 16 :=
    (UInt64.toNat_and _ _).trans (Nat.and_two_pow_sub_one_eq_mod _ 16)
  have hword : stamp.random.toNat < 2 ^ 32 := stamp.random.toNat_lt
  change (stamp.millis <<< 32 ||| (stamp.random.toUInt64 &&& 0xffff0000) |||
    (count &&& 0xffff)).toNat = _
  rw [UInt64.toNat_or, UInt64.toNat_or, hmillis, hrandom, hcount, Nat.or_assoc,
    ← Nat.shiftLeft_add_eq_or_of_lt (Nat.mod_lt _ (by norm_num) : count.toNat % 2 ^ 16 < 2 ^ 16),
    ← Nat.shiftLeft_add_eq_or_of_lt, Nat.shiftLeft_eq, Nat.shiftLeft_eq]
  rw [Nat.shiftLeft_eq]
  omega

namespace Mint

/-! ### Ids in a row -/

/-- Ids that are issued after others go on from the counter that these leave. -/
theorem issue_append (mint : Mint) (stamps stamps' : List Stamp) :
    (mint.issue (stamps ++ stamps')).1 =
      (mint.issue stamps).1 ++ ((mint.issue stamps).2.issue stamps').1 := by
  induction stamps generalizing mint with
  | nil => rfl
  | cons stamp rest ih => exact congrArg _ (ih ⟨mint.counter + 1⟩)

/-- **An id is made of its readings and its place in the run**: before it the counter was advanced
once for each id. -/
theorem getElem?_issue (mint : Mint) (stamps : List Stamp) (k : ℕ) :
    (mint.issue stamps).1[k]? =
      stamps[k]?.map fun stamp => stamp.idAt (mint.counter + UInt64.ofNat (k + 1)) := by
  induction stamps generalizing mint k with
  | nil => rfl
  | cons stamp rest ih =>
      cases k with
      | zero => rfl
      | succ k =>
          change (issue ⟨mint.counter + 1⟩ rest).1[k]? = _
          rw [ih, List.getElem?_cons_succ]
          dsimp only
          rw [UInt64.add_assoc, UInt64.add_comm 1, UInt64.ofNat_add (k + 1) 1]
          rfl

/-- The counter as a number, after some ids. -/
theorem toNat_counter (mint : Mint) (n : ℕ) :
    (mint.counter + UInt64.ofNat n).toNat = (mint.counter.toNat + n) % 2 ^ 64 := by
  rw [UInt64.toNat_add, UInt64.toNat_ofNat']
  omega

/-- The low bits of an id are those of the counter. -/
theorem idAt_low (mint : Mint) (stamp : Stamp) (n : ℕ) :
    (stamp.idAt (mint.counter + UInt64.ofNat n)).toUInt64.toNat % 2 ^ 16 =
      (mint.counter.toNat + n) % 2 ^ 16 := by
  rw [stamp.toNat_idAt, mint.toNat_counter]
  omega

/-- Two ids differ if fewer than `2 ^ 16` ids lie between them, whatever their readings are. -/
theorem idAt_ne (mint : Mint) (stamp stamp' : Stamp) {m n : ℕ} (h : m < n) (hn : n - m < 2 ^ 16) :
    stamp.idAt (mint.counter + UInt64.ofNat m) ≠ stamp'.idAt (mint.counter + UInt64.ofNat n) := by
  intro heq
  have hm := mint.idAt_low stamp m
  rw [heq, mint.idAt_low stamp' n] at hm
  omega

/-- Ids that are issued fewer than `2 ^ 16` calls apart differ. -/
theorem issue_ne {mint : Mint} {stamps : List Stamp} {i j : ℕ} {a b : Int64} (hij : i < j)
    (hj : j - i < 2 ^ 16) (ha : (mint.issue stamps).1[i]? = some a)
    (hb : (mint.issue stamps).1[j]? = some b) : a ≠ b := by
  rw [getElem?_issue, Option.map_eq_some_iff] at ha hb
  obtain ⟨stamp, -, rfl⟩ := ha
  obtain ⟨stamp', -, rfl⟩ := hb
  exact mint.idAt_ne stamp stamp' (Nat.succ_lt_succ hij) (by omega)

/-- **As long as the low bits of the counter do not start over, all ids differ.** -/
theorem nodup_issue (mint : Mint) {stamps : List Stamp} (h : stamps.length ≤ 2 ^ 16) :
    (mint.issue stamps).1.Nodup := by
  refine List.pairwise_iff_getElem.2 fun i j hi hj hij => ?_
  rw [length_issue] at hj
  exact issue_ne hij (by omega) (List.getElem?_eq_getElem hi) (List.getElem?_eq_getElem _)

end Mint

/-! ### Entries that are added -/

namespace Tree

variable {t : Tree} {L : Ledger}

/-- Adding an entry replaces that of its id, unless the flush that it sets off fails. -/
theorem Records.exists_add (hr : t.Records L) (h : t.Sound) (id : Int64) (value : UInt64) :
    ∃ t' outcome L', t.add id value = .ok (t', outcome) ∧ t'.Sound ∧ t'.metric = t.metric ∧
      t'.Records L' ∧ (t.metric.Sortable → outcome = .ok ()) ∧
      (outcome = .ok () → ∀ i, L'.lookUp i = ([(id, value)].lookup i).or (L.lookUp i)) := by
  obtain ⟨t', answer, hop, hp⟩ := h.exists_performs (.add id value)
  obtain ⟨L', hstep, hr'⟩ := hr.step h hp
  obtain ⟨outcome, hadd, rfl⟩ := perform_add_eq_ok.1 hop
  refine ⟨t', outcome, L', hadd, hp.sound h, hp.metric, hr', fun hd => ?_, ?_⟩
  · have hnone := h.fault?_of_sortable hd hp
    cases outcome with
    | error fault => cases hnone
    | ok => rfl
  · rintro rfl i
    rw [← L.lookUp_put (id, value)]
    cases hstep with
    | addWaits => rfl
    | addFlushes _ hflush =>
        cases hflush with
        | taken => exact Ledger.lookUp_flushed _ i

/-- A flush that does not fail changes no entry. -/
theorem Records.exists_flush (hr : t.Records L) (h : t.Sound) :
    ∃ t' outcome L', t.flush = .ok (t', outcome) ∧ t'.Sound ∧ t'.metric = t.metric ∧
      t'.Records L' ∧ (t.metric.Sortable → outcome = .ok ()) ∧
      (outcome = .ok () → ∀ i, L'.lookUp i = L.lookUp i) := by
  obtain ⟨t', outcome, hok, hf⟩ := Tree.exists_flush h
  obtain ⟨L', hflush, hr'⟩ := hr.flush h hf
  refine ⟨t', outcome, L', hok, hf.sound, hf.metric, hr', hf.eq_ok_of_sortable h, ?_⟩
  rintro rfl i
  cases hflush with
  | taken => exact L.lookUp_flushed i

/-- A tree has as many entries as there are ids, if these are the ids that have one. -/
theorem Records.size_eq_length (hr : t.Records L) (h : t.Sound) {ids : List Int64}
    (hids : ids.Nodup) (hmem : ∀ id, (L.lookUp id).isSome ↔ id ∈ ids) : t.size = ids.length := by
  rw [hr.size h, ← Std.TreeMap.length_keys]
  refine List.Perm.length_eq ((List.perm_ext_iff_of_nodup ?_ hids).2 fun id => ?_)
  · exact Std.TreeMap.nodup_keys
  · rw [Std.TreeMap.mem_keys, Std.TreeMap.mem_iff_isSome_getElem?, L.getElem?_overlay, hmem]

end Tree

namespace Index

/-! ### An index that only grows -/

/-- What an index is asked for while it only grows: to take a fingerprint under an id that is
generated from readings, or to hand the waiting entries to the nodes. -/
inductive Ask where
  | insert (value : UInt64) (stamp : Stamp)
  | sync

/-- Does what is asked for. -/
def ask (x : Index) : Ask → Except Breach (Index × Except IndexFault Unit)
  | .insert value stamp => do
    let (x, answer) ← x.insert value (.generated stamp)
    return (x, answer.map fun _ => ())
  | .sync => x.sync

/-- Does everything that is asked for, in order, and collects the answers. -/
def askAll (x : Index) : List Ask → Except Breach (Index × List (Except IndexFault Unit))
  | [] => return (x, [])
  | a :: rest => do
    let (x, answer) ← x.ask a
    let (x, answers) ← x.askAll rest
    return (x, answer :: answers)

/-- The readings for the id that is generated, if there is one. -/
def Ask.stamps : Ask → List Stamp
  | .insert _ stamp => [stamp]
  | .sync => []

variable {x : Index} {L : Ledger} {metric : Metric}

/-- What is asked for succeeds, or a flush fails; with a sortable metric none does. If it succeeds,
the ids with an entry are those that had one before and the one that is generated. -/
theorem exists_ask (hr : x.tree.Records L) (h : x.tree.Sound) (a : Ask) :
    ∃ (x' : Index) (outcome : Except Fault Unit) (L' : Ledger),
      x.ask a = .ok (x', outcome.mapError .tree) ∧ x'.tree.Sound ∧
      x'.tree.metric = x.tree.metric ∧ x'.tree.Records L' ∧
      x'.mint = (x.mint.issue a.stamps).2 ∧
      (x.tree.metric.Sortable → outcome = .ok ()) ∧
      (outcome = .ok () → ∀ id, (L'.lookUp id).isSome ↔
        id ∈ (x.mint.issue a.stamps).1 ∨ (L.lookUp id).isSome) := by
  cases a with
  | insert value stamp =>
      obtain ⟨t, outcome, L', hadd, hsound, hmetric, hr', hok, hlook⟩ :=
        hr.exists_add h (stamp.idAt (x.mint.counter + 1)) value
      refine ⟨{ x with tree := t, mint := ⟨x.mint.counter + 1⟩ }, outcome, L', ?_, hsound, hmetric,
        hr', rfl, hok, fun houtcome id => ?_⟩
      · rw [ask, insert_eq,
          show x.tree.add (x.choose (.generated stamp)).1 value = _ from hadd]
        cases outcome <;> rfl
      · change _ ↔ id ∈ [stamp.idAt (x.mint.counter + 1)] ∨ _
        rw [hlook houtcome, Option.isSome_or, Bool.or_eq_true, List.mem_singleton,
          List.lookup_cons]
        refine or_congr_left ?_
        rcases eq_or_ne id (stamp.idAt (x.mint.counter + 1)) with rfl | hne
        · rw [beq_self_eq_true]
          exact iff_of_true rfl rfl
        · rw [beq_eq_false_iff_ne.2 hne]
          exact iff_of_false Bool.false_ne_true hne
  | sync =>
      obtain ⟨t, outcome, L', hflush, hsound, hmetric, hr', hok, hlook⟩ := hr.exists_flush h
      refine ⟨{ x with tree := t }, outcome, L', ?_, hsound, hmetric, hr', rfl, hok,
        fun houtcome id => ?_⟩
      · rw [ask, sync, hflush]
        rfl
      · rw [hlook houtcome]
        exact (or_iff_right List.not_mem_nil).symm

/-- **An index has entries for the ids that it had and for those that are generated**, if no flush
fails on the way; with a sortable metric none does. -/
theorem exists_askAll (hr : x.tree.Records L) (h : x.tree.Sound) (asks : List Ask) :
    ∃ x' answers L', x.askAll asks = .ok (x', answers) ∧ x'.tree.Sound ∧ x'.tree.Records L' ∧
      (x.tree.metric.Sortable → ∀ answer ∈ answers, answer = .ok ()) ∧
      ((∀ answer ∈ answers, answer = .ok ()) → ∀ id, (L'.lookUp id).isSome ↔
        id ∈ (x.mint.issue (asks.flatMap Ask.stamps)).1 ∨ (L.lookUp id).isSome) := by
  induction asks generalizing x L with
  | nil =>
      refine ⟨x, [], L, rfl, h, hr, fun _ answer hanswer => ?_, fun _ id => ?_⟩
      · cases hanswer
      · exact (or_iff_right List.not_mem_nil).symm
  | cons a rest ih =>
      obtain ⟨x₁, outcome, L₁, hask, h₁, hmetric, hr₁, hmint, hfirst, hlook₁⟩ := exists_ask hr h a
      obtain ⟨x', answers, L', hrest, h', hr', hothers, hlook⟩ := ih hr₁ h₁
      rw [hmetric] at hothers
      refine ⟨x', outcome.mapError .tree :: answers, L', ?_, h', hr', fun hd => ?_, fun hall id => ?_⟩
      · rw [askAll, hask, ok_bind]
        dsimp only
        rw [hrest]
        rfl
      · refine List.forall_mem_cons.2 ⟨?_, hothers hd⟩
        rw [hfirst hd]
        rfl
      · obtain ⟨hok, hall⟩ := List.forall_mem_cons.1 hall
        have houtcome : outcome = .ok () := by
          cases outcome with
          | error fault => cases hok
          | ok => rfl
        rw [hlook hall, hlook₁ houtcome, hmint, List.flatMap_cons, Mint.issue_append,
          List.mem_append, or_assoc, or_left_comm]

/-- **An index that grows by generated ids loses no entry.**  From any count on, also one about to
wrap, and whatever the clock and the random words are, an id is made of three fields: the low bits
of the counter, bits of its random word and low bits of its clock; the counter advances by one with
every id; and ids fewer than `2 ^ 16` calls apart differ. So an index without entries that is asked
to take at most `2 ^ 16` fingerprints under generated ids, and is flushed at any time in between,
answers, and has one entry for each of them if no flush fails; with a sortable metric none does. -/
theorem generated_ids_differ :
    (∀ (start : UInt64) (stamps : List Stamp), ∃ ids mint,
      (Mint.mk start).issue stamps = (ids, mint) ∧ ids.length = stamps.length ∧
      mint.counter.toNat = (start.toNat + stamps.length) % 2 ^ 64 ∧
      (∀ (k : ℕ) (stamp : Stamp), stamps[k]? = some stamp → ∃ id, ids[k]? = some id ∧
        id.toUInt64.toNat % 2 ^ 16 = (start.toNat + (k + 1)) % 2 ^ 16 ∧
        id.toUInt64.toNat / 2 ^ 16 % 2 ^ 16 = stamp.random.toNat / 2 ^ 16 ∧
        id.toUInt64.toNat / 2 ^ 32 = stamp.millis.toNat % 2 ^ 32) ∧
      ∀ (i j : ℕ) (a b : Int64), i < j → j - i < 2 ^ 16 →
        ids[i]? = some a → ids[j]? = some b → a ≠ b) ∧
    ∀ (metric : Metric) (x : Index), Reachable metric x → x.isEmpty = true →
      ∀ asks : List Ask, (asks.flatMap Ask.stamps).length ≤ 2 ^ 16 →
        ∃ x' answers, x.askAll asks = .ok (x', answers) ∧
          (metric.Sortable → ∀ answer ∈ answers, answer = .ok ()) ∧
          ((∀ answer ∈ answers, answer = .ok ()) →
            x'.size = (asks.flatMap Ask.stamps).length) := by
  constructor
  · intro start stamps
    obtain ⟨mint, rfl⟩ : ∃ mint : Mint, mint.counter = start := ⟨⟨start⟩, rfl⟩
    refine ⟨(mint.issue stamps).1, (mint.issue stamps).2, rfl, Mint.length_issue _ _, ?_,
      fun k stamp hstamp => ?_, fun i j a b hij hj ha hb => Mint.issue_ne hij hj ha hb⟩
    · rw [Mint.counter_issue, Mint.toNat_counter]
    · have hfields := stamp.toNat_idAt (mint.counter + UInt64.ofNat (k + 1))
      rw [Mint.toNat_counter] at hfields
      have hword : stamp.random.toNat < 2 ^ 32 := stamp.random.toNat_lt
      refine ⟨_, by rw [Mint.getElem?_issue, hstamp, Option.map_some], ?_, ?_, ?_⟩
      · omega
      · omega
      · omega
  · intro metric x hx hempty asks hlength
    obtain ⟨shape, ht⟩ := hx.exists_tree
    obtain ⟨hsound, -, rfl⟩ := ht.sound
    obtain ⟨L, hr⟩ := ht.exists_records
    obtain ⟨x', answers, L', hok, hsound', hr', hfine, hlook⟩ := exists_askAll hr hsound asks
    refine ⟨x', answers, hok, hfine, fun hall => ?_⟩
    have hmem : ∀ id, (L'.lookUp id).isSome ↔
        id ∈ (x.mint.issue (asks.flatMap Ask.stamps)).1 := by
      intro id
      rw [hlook hall, lookUp_eq_none_of_isEmpty hr hsound hempty id]
      exact or_iff_left Bool.false_ne_true
    have hsize := hr'.size_eq_length hsound' (x.mint.nodup_issue hlength) hmem
    rwa [Mint.length_issue] at hsize

/-- Two ids of one moment, generated while the counter wraps, and an index that takes two entries
under generated ids. -/
theorem generated_ids_differ_wrapping :
    (∃ a b mint, (Mint.mk 0xffffffffffffffff).issue [⟨7, 9⟩, ⟨7, 9⟩] = ([a, b], mint) ∧ a ≠ b ∧
      mint.counter.toNat = 1) ∧
    ∃ x' answers, usual.askAll [.insert 5 ⟨7, 9⟩, .sync, .insert 5 ⟨7, 9⟩] = .ok (x', answers) ∧
      x'.size = 2 := by
  obtain ⟨hids, hindex⟩ := generated_ids_differ
  constructor
  · obtain ⟨ids, mint, hissue, -, hcounter, -, hne⟩ :=
      hids 0xffffffffffffffff [⟨7, 9⟩, ⟨7, 9⟩]
    obtain ⟨rfl, rfl⟩ := Prod.mk.inj hissue
    exact ⟨_, _, _, rfl, hne 0 1 _ _ Nat.one_pos (by decide) rfl rfl, hcounter⟩
  · have husual : Reachable hamming usual :=
      .ofConfig (ofConfig_eq_ok.2 ⟨by decide, rfl⟩ : ofConfig {} hamming = .ok usual)
    obtain ⟨x', answers, hok, hfine, hsize⟩ :=
      hindex hamming usual husual rfl [.insert 5 ⟨7, 9⟩, .sync, .insert 5 ⟨7, 9⟩] (by decide)
    exact ⟨x', answers, hok, hsize (hfine sortable_hamming)⟩

end Index

end Vantage
