/-
**Entries that are replayed.**

Adding entries one by one leaves for each id the last value that the entries have for it; ids that
do not occur keep theirs. When the metric is sortable none of the flushes on the way fails, so this
is so whenever the flushes happen to fall. A tree that is rebuilt from the snapshot of another one
has the same snapshot, whatever the shapes and the metrics of the two.

Main definitions:

* `Snapshot.Lists` — a snapshot lists given entries in ascending order of the id.

Main results:

* `Snapshot.Lists.unique` — there is one such snapshot;
* `Ledger.lists_overlay` — a tree lists the entries of its ledger;
* `Tree.Records.exists_additions` — **entries that are added replace those of their ids**;
* `Tree.exists_restored` — **a tree that is rebuilt has the last values of the entries**.
-/

import Vantage.Proofs.Ledger
import Vantage.Proofs.LinearScan
import Vantage.Proofs.Restoring

set_option relaxedAutoImplicit false
set_option autoImplicit false

namespace Vantage

/-! ### Snapshots in order -/

/-- The snapshot lists the entries that ids have, in ascending order of the id. -/
structure Snapshot.Lists (s : Snapshot) (entry : Int64 → Option UInt64) : Prop where
  ascending : s.entries.Pairwise fun x y => x.1 < y.1
  mem_iff : ∀ id value, (id, value) ∈ s.entries ↔ entry id = some value

namespace Snapshot.Lists

variable {s s' : Snapshot} {entry : Int64 → Option UInt64}

theorem nodup (h : s.Lists entry) : (s.entries.map Prod.fst).Nodup := by
  rw [List.Nodup, List.pairwise_map]
  refine h.ascending.imp fun hlt heq => ?_
  rw [heq] at hlt
  exact Int64.lt_irrefl hlt

/-- **There is one way to list entries.** -/
theorem unique (h : s.Lists entry) (h' : s'.Lists entry) : s = s' := by
  have hperm : s.entries.Perm s'.entries := by
    refine (List.perm_ext_iff_of_nodup (h.nodup.of_map Prod.fst) (h'.nodup.of_map Prod.fst)).2 ?_
    rintro ⟨id, value⟩
    rw [h.mem_iff, h'.mem_iff]
  have hentries : s.entries = s'.entries :=
    hperm.eq_of_pairwise (fun x y _ _ hxy hyx => absurd hyx (Int64.lt_asymm hxy))
      h.ascending h'.ascending
  obtain ⟨entries⟩ := s
  exact congrArg Snapshot.mk hentries

/-- Every id is listed once, so it makes no difference from where it is looked up. -/
theorem lookup_reverse (h : s.Lists entry) (id : Int64) :
    s.entries.reverse.lookup id = entry id := by
  have hnodup : (s.entries.reverse.map Prod.fst).Nodup := by
    rw [List.map_reverse]
    exact List.nodup_reverse.2 h.nodup
  cases hid : entry id with
  | some value =>
      exact Ledger.lookup_of_mem hnodup (List.mem_reverse.2 ((h.mem_iff id value).2 hid))
  | none =>
      refine List.lookup_eq_none_iff.2 fun e he => bne_iff_ne.2 fun heq => ?_
      have hmem := (h.mem_iff e.1 e.2).1 (List.mem_reverse.1 he)
      rw [← heq, hid] at hmem
      cases hmem

end Snapshot.Lists

namespace Ledger

variable {L L' : Ledger}

/-- **A ledger lists the entries that it finds.** -/
theorem lists_overlay (L : Ledger) : Snapshot.Lists ⟨L.overlay.toList⟩ L.lookUp where
  ascending := Std.TreeMap.ordered_keys_toList.imp fun h => Std.compare_eq_lt.1 h
  mem_iff id value := by
    rw [← L.getElem?_overlay]
    exact Std.TreeMap.mem_toList_iff_getElem?_eq_some

/-! ### Entries written to a ledger -/

theorem lookup_without (id i : Int64) (entries : List Entry) :
    (without id entries).lookup i = if i = id then none else entries.lookup i := by
  split
  next heq =>
    refine List.lookup_eq_none_iff.2 fun e he => bne_iff_ne.2 fun hid => ?_
    exact not_mem_without id entries (List.mem_map.2 ⟨e, he, hid.symm.trans heq⟩)
  next hne =>
    induction entries with
    | nil => rfl
    | cons e rest ih =>
        rw [without] at ih ⊢
        by_cases hid : e.1 = id
        · rw [List.filter_cons_of_neg (by simpa using hid), ih, List.lookup_cons,
            beq_eq_false_iff_ne.2 fun heq => hne (heq.trans hid)]
        · rw [List.filter_cons_of_pos (by simpa using hid), List.lookup_cons, List.lookup_cons, ih]

/-- An entry that is put into the buffer replaces the one that its id had. -/
theorem lookUp_put (L : Ledger) (e : Entry) (id : Int64) :
    (L.put e).lookUp id = ([e].lookup id).or (L.lookUp id) := by
  unfold lookUp put
  rw [List.lookup_append, lookup_without, List.lookup_cons]
  rcases eq_or_ne id e.1 with rfl | hne
  · rw [if_pos rfl, beq_self_eq_true]
    rfl
  · rw [if_neg hne, beq_eq_false_iff_ne.2 hne]
    cases L.buffer.lookup id <;> rfl

/-- Writing the buffer changes no entry. -/
theorem lookUp_flushed (L : Ledger) (id : Int64) : L.flushed.lookUp id = L.lookUp id :=
  L.getElem?_overlay id

/-- Entries that are added one by one replace those of their ids, the later the earlier, if no
flush fails. -/
theorem Run.lookUp_additions {threshold : Nat} {entries : List Entry} {answers : List Answer}
    (h : Run threshold L (Tree.additions entries) answers L')
    (hnone : ∀ answer ∈ answers, answer.fault? = none) (id : Int64) :
    L'.lookUp id = (entries.reverse.lookup id).or (L.lookUp id) := by
  induction entries generalizing L answers with
  | nil =>
      cases h with
      | nil => rfl
  | cons e rest ih =>
      cases h with
      | @cons _ L₁ _ _ _ answer answers hstep hrest =>
          obtain ⟨hfirst, hothers⟩ := List.forall_mem_cons.1 hnone
          have hone : L₁.lookUp id = ([e].lookup id).or (L.lookUp id) := by
            rw [← L.lookUp_put]
            cases hstep with
            | addWaits => rfl
            | addFlushes _ hflush =>
                cases hflush with
                | taken => exact lookUp_flushed _ id
                | dropped => cases hfirst
          rw [ih hrest hothers, hone, List.reverse_cons, List.lookup_append, Option.or_assoc]

end Ledger

namespace Tree

variable {t t' : Tree} {L L' : Ledger} {shape : Shape} {metric : Metric}

/-- Every reachable tree has the entries of some ledger. -/
theorem Reachable.exists_records (h : Reachable shape metric t) : ∃ L, t.Records L := by
  induction h with
  | fresh => exact ⟨{}, records_fresh shape metric⟩
  | step h hop ih =>
      obtain ⟨L, hr⟩ := ih
      obtain ⟨hsound, -, -⟩ := h.sound
      obtain ⟨L', -, hr'⟩ := hr.step hsound (hsound.performs hop)
      exact ⟨L', hr'⟩

/-- The snapshot of a tree lists the entries of its ledger. -/
theorem Records.exists_snapshot (hr : t.Records L) (h : t.Sound) :
    ∃ s, t.snapshot = .ok s ∧ s.Lists L.lookUp :=
  ⟨_, hr.snapshot h, L.lists_overlay⟩

/-- **Entries that are added replace those of their ids**, and none is refused. -/
theorem Records.exists_additions (hr : t.Records L) (h : t.Sound) (hd : t.metric.Sortable)
    (entries : List Entry) :
    ∃ t' answers L', t.performAll (additions entries) = .ok (t', answers) ∧ t'.Sound ∧
      t'.metric = t.metric ∧ t'.Records L' ∧ (∀ answer ∈ answers, answer.fault? = none) ∧
      ∀ id, L'.lookUp id = (entries.reverse.lookup id).or (L.lookUp id) := by
  obtain ⟨t', answers, L', hok, hsound, hrun, hr'⟩ := hr.run h (additions entries)
  obtain ⟨t'', answers', hok', -, hmetric, hnone⟩ :=
    h.exists_performAll_of_sortable hd (additions entries)
  obtain ⟨rfl, rfl⟩ := Prod.mk.inj (Except.ok.inj (hok.symm.trans hok'))
  exact ⟨t', answers, L', hok, hsound, hmetric, hr', hnone, hrun.lookUp_additions hnone⟩

/-- A flush with a sortable metric succeeds, and changes no entry. -/
theorem Records.exists_flushed (hr : t.Records L) (h : t.Sound) (hd : t.metric.Sortable) :
    ∃ t', t.flush = .ok (t', .ok ()) ∧ t'.Sound ∧ t'.metric = t.metric ∧ t'.arrivals = [] ∧
      ∃ L', t'.Records L' ∧ ∀ id, L'.lookUp id = L.lookUp id := by
  obtain ⟨t', outcome, hok, hf⟩ := exists_flush h
  obtain rfl := hf.eq_ok_of_sortable h hd
  obtain ⟨L', hflush, hr'⟩ := hr.flush h hf
  cases hflush with
  | taken => exact ⟨t', hok, hf.sound, hf.metric, hf.arrivals, _, hr', L.lookUp_flushed⟩

/-- **A tree that is rebuilt has the last values of the entries**, and nothing waits in it. -/
theorem exists_restored (hshape : shape.Sound) (hd : metric.Sortable) (snapshot : Snapshot) :
    ∃ t, restore snapshot shape metric = .ok (.ok t) ∧ t.Sound ∧ t.metric = metric ∧
      t.arrivals = [] ∧
      ∃ s, t.snapshot = .ok s ∧ s.Lists fun id => snapshot.entries.reverse.lookup id := by
  obtain ⟨t₁, answers, L, hok, hsound, hmetric, hr, hnone, hlook⟩ :=
    (records_fresh shape metric).exists_additions (sound_fresh hshape metric) hd snapshot.entries
  obtain ⟨t, hflush, hsound', hmetric', hempty, L', hr', hlook'⟩ :=
    hr.exists_flushed hsound (hmetric ▸ hd)
  obtain ⟨s, hs, hlists⟩ := hr'.exists_snapshot hsound'
  have hlast : L'.lookUp = fun id => snapshot.entries.reverse.lookup id := by
    funext id
    rw [hlook', hlook]
    exact Option.or_none
  obtain ⟨outcome, hrestore, hrebuilds⟩ := exists_restore hshape metric snapshot
  refine ⟨t, ?_, hsound', hmetric'.trans hmetric, hempty, s, hs, hlast ▸ hlists⟩
  cases outcome with
  | ok t' =>
      obtain ⟨t₂, answers', hok', hflush'⟩ := hrebuilds.tree t' rfl
      obtain ⟨rfl, -⟩ := Prod.mk.inj (Except.ok.inj (hok.symm.trans hok'))
      obtain ⟨rfl, -⟩ := Prod.mk.inj (Except.ok.inj (hflush.symm.trans hflush'))
      exact hrestore
  | error fault =>
      obtain ⟨ops, t₂, answers', hrun, hmem⟩ := hrebuilds.fault fault rfl
      exact absurd ((sound_fresh hshape metric).fault?_of_performAll hd hrun _ hmem)
        (by simp [Answer.fault?])

end Tree

end Vantage
