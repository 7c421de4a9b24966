/-
**An index that is saved and loaded, or replayed from its log.**

A saved index is a version byte and the written form of the snapshot of its tree. Loading reads the
snapshot back and rebuilds a tree from it, under whatever configuration is asked for; the
replication log is the snapshot in another form, and to insert its entries into an empty index has
the same effect without the flush at the end. So the entries survive both ways, and with them
everything that depends on the entries alone.

Main definitions:

* `Index.Reachable` — the indexes that the operations of an index lead to;
* `Index.insertAll` — inserting the entries of a replication log;
* `Index.Alike` — two indexes answer a query alike.

Main results:

* `Index.Reachable.exists_tree` — the tree of a reachable index is reachable;
* `Index.readSaved_save` — what was saved is read back;
* `Index.saved_and_loaded` — **entries survive being saved and loaded, and being replayed**.
-/

import Vantage.Index.Basic
import Vantage.Proofs.Replaying
import Vantage.Proofs.SavedForm

set_option relaxedAutoImplicit false
set_option autoImplicit false

namespace Vantage

namespace Index

/-! ### Operations on an index -/

/-- The indexes that operations lead to, from one without entries or one that was loaded. -/
inductive Reachable (metric : Metric) : Index → Prop where
  | ofConfig {config : Config} {x : Index} (h : ofConfig config metric = .ok x) :
      Reachable metric x
  | load {source : Source} {config : Config} {x : Index}
      (h : load source config metric = .ok (.ok x)) : Reachable metric x
  | insert {x x' : Index} {value : UInt64} {choice : IdChoice} {answer : Except IndexFault Int64}
      (h : Reachable metric x) (hok : x.insert value choice = .ok (x', answer)) :
      Reachable metric x'
  | delete {x x' : Index} {id : Int64} {found : Bool} (h : Reachable metric x)
      (hok : x.delete id = .ok (x', found)) : Reachable metric x'
  | sync {x x' : Index} {answer : Except IndexFault Unit} (h : Reachable metric x)
      (hok : x.sync = .ok (x', answer)) : Reachable metric x'
  | clear {x x' : Index} (h : Reachable metric x) (hok : x.clear = .ok x') : Reachable metric x'

/-- Inserts the entries of a replication log under their ids, and collects the answers. -/
def insertAll (x : Index) :
    List (UInt64 × Int64) → Except Breach (Index × List (Except IndexFault Int64))
  | [] => return (x, [])
  | (value, id) :: rest => do
    let (x, answer) ← x.insert value (.given id)
    let (x, answers) ← x.insertAll rest
    return (x, answer :: answers)

/-- Two indexes answer a query alike: with the same fault, or with the same ids and distances. -/
def Alike (x y : Index) (target : UInt64) (radius : Float) : Prop :=
  (∃ fault, x.query target radius = .ok (.error fault) ∧
      y.query target radius = .ok (.error fault)) ∨
    ∃ found found', x.query target radius = .ok (.ok found) ∧
      y.query target radius = .ok (.ok found') ∧ found.Perm found'

variable {metric : Metric} {x x' y : Index}

/-- An insertion adds an entry to the tree; the choice of its id does not concern the tree. -/
theorem insert_eq (x : Index) (value : UInt64) (choice : IdChoice) :
    x.insert value choice = do
      let (tree, answer) ← x.tree.add (x.choose choice).1 value
      return ({ (x.choose choice).2 with tree },
        (answer.map fun _ => (x.choose choice).1).mapError .tree) := by
  cases choice <;> rfl

/-- The shape of a tree that was made can be used. -/
theorem ofConfig_eq_ok {config : Config} :
    ofConfig config metric = .ok x ↔ config.shape.Sound ∧
      x = { tree := .fresh config.shape metric, mint := ⟨config.initialCounter⟩, config } := by
  unfold ofConfig Tree.ofShape Shape.Sound
  cases config.shape.defect? with
  | some defect =>
      refine ⟨fun h => ?_, fun h => absurd h.1 (by simp)⟩
      cases h
  | none =>
      refine ⟨fun h => ⟨rfl, (Except.ok.inj h).symm⟩, ?_⟩
      rintro ⟨-, rfl⟩
      rfl

/-- **The tree of a reachable index is reachable.** -/
theorem Reachable.exists_tree (h : Reachable metric x) :
    ∃ shape, Tree.Reachable shape metric x.tree := by
  induction h with
  | ofConfig h =>
      obtain ⟨hshape, rfl⟩ := ofConfig_eq_ok.1 h
      exact ⟨_, .fresh hshape⟩
  | @load source config x h =>
      unfold Index.load at h
      split at h
      next => cases h
      next snapshot _ =>
        obtain ⟨outcome, hrestore, h⟩ := bind_eq_ok.1 h
        cases outcome with
        | error fault => cases h
        | ok t =>
            obtain rfl := Except.ok.inj (Except.ok.inj h)
            exact ⟨_, Tree.reachable_of_restore hrestore⟩
  | @insert x x' value choice answer h hok ih =>
      obtain ⟨shape, ht⟩ := ih
      rw [insert_eq] at hok
      obtain ⟨⟨t, outcome⟩, hadd, hok⟩ := bind_eq_ok.1 hok
      obtain ⟨rfl, -⟩ := Prod.mk.inj (Except.ok.inj hok)
      exact ⟨shape, ht.step (Tree.perform_add_eq_ok.2 ⟨outcome, hadd, rfl⟩)⟩
  | @delete x x' id found h hok ih =>
      obtain ⟨shape, ht⟩ := ih
      obtain ⟨⟨t, point⟩, hdelete, hok⟩ := bind_eq_ok.1 hok
      obtain ⟨rfl, -⟩ := Prod.mk.inj (Except.ok.inj hok)
      have hop : x.tree.perform (.delete id) = .ok (t, .point point) := by
        rw [Tree.perform, hdelete]
        rfl
      exact ⟨shape, ht.step hop⟩
  | @sync x x' answer h hok ih =>
      obtain ⟨shape, ht⟩ := ih
      obtain ⟨⟨t, outcome⟩, hflush, hok⟩ := bind_eq_ok.1 hok
      obtain ⟨rfl, -⟩ := Prod.mk.inj (Except.ok.inj hok)
      have hop : x.tree.perform .sync = .ok (t, .done outcome) := by
        rw [Tree.perform, hflush]
        rfl
      exact ⟨shape, ht.step hop⟩
  | @clear x x' h hok ih =>
      obtain ⟨shape, ht⟩ := ih
      obtain ⟨t, hclear, hok⟩ := bind_eq_ok.1 hok
      obtain rfl := Except.ok.inj hok
      have hop : x.tree.perform .clear = .ok (t, .done (.ok ())) := by
        rw [Tree.perform, hclear]
        rfl
      exact ⟨shape, ht.step hop⟩

/-! ### Saving and loading -/

/-- The snapshot of the tree is what is saved, and what the replication log lists. -/
theorem save_and_log {s : Snapshot} (h : x.tree.snapshot = .ok s) :
    x.save = .ok (version :: s.encode) ∧ x.replicationLog = .ok (s.entries.map Prod.swap) := by
  constructor
  · rw [save, h]
    rfl
  · rw [replicationLog, h]
    rfl

/-- **What was saved is read back.** -/
theorem readSaved_save {source : Source} {s : Snapshot} (hsize : s.size < UInt64.size)
    (h : source.rest = version :: s.encode) : readSaved source = .ok s := by
  obtain ⟨turns, hread⟩ := source.exists_readExactly_append
    (show source.rest = [version] ++ s.encode from h)
  rw [List.length_singleton] at hread
  have hbyte : readVersion source = .ok (version, { source with rest := s.encode, turns }) := by
    rw [readVersion, hread]
    rfl
  obtain ⟨turns', hrest⟩ := Snapshot.exists_readFrom_encode
    { source with rest := s.encode, turns } hsize (List.append_nil _).symm
  rw [readSaved, hbyte, ok_bind]
  dsimp only
  rw [if_pos rfl, hrest]
  rfl

/-- An index that is loaded from its saved form has the same snapshot, and nothing waits in it. -/
theorem exists_loaded {source : Source} {s : Snapshot} {entry : Int64 → Option UInt64}
    {config : Config} (hlists : s.Lists entry) (hsize : s.size < UInt64.size)
    (h : source.rest = version :: s.encode) (hshape : config.shape.Sound)
    (hd : metric.Sortable) :
    ∃ y, load source config metric = .ok (.ok y) ∧ y.tree.Sound ∧ y.tree.metric = metric ∧
      y.tree.arrivals = [] ∧ y.tree.snapshot = .ok s := by
  obtain ⟨t, hrestore, hsound, hmetric, hempty, s', hs', hlists'⟩ :=
    Tree.exists_restored hshape hd s
  obtain rfl : s' = s := by
    refine hlists'.unique ?_
    rwa [funext hlists.lookup_reverse]
  refine ⟨{ tree := t, mint := ⟨config.initialCounter⟩, config }, ?_, hsound, hmetric, hempty, hs'⟩
  rw [load, readSaved_save hsize h]
  dsimp only
  rw [hrestore]
  rfl

/-! ### Replaying a log -/

/-- Entries that are inserted under their ids are added to the tree. -/
theorem insertAll_eq {t : Tree} {log : List (UInt64 × Int64)} {answers : List Answer}
    (h : x.tree.performAll (Tree.additions (log.map Prod.swap)) = .ok (t, answers))
    (hnone : ∀ answer ∈ answers, answer.fault? = none) :
    x.insertAll log = .ok ({ x with tree := t }, log.map fun e => .ok e.2) := by
  induction log generalizing x answers with
  | nil =>
      obtain ⟨rfl, -⟩ := Prod.mk.inj (Except.ok.inj h)
      rfl
  | cons e rest ih =>
      obtain ⟨value, id⟩ := e
      obtain ⟨t₁, answer, answers', hop, hrest, rfl⟩ := Tree.performAll_cons_eq_ok.1 h
      obtain ⟨hfirst, hothers⟩ := List.forall_mem_cons.1 hnone
      obtain ⟨outcome, hadd, rfl⟩ := Tree.perform_add_eq_ok.1 hop
      cases outcome with
      | error fault => cases hfirst
      | ok =>
          have hinsert : x.insert value (.given id) = .ok ({ x with tree := t₁ }, .ok id) := by
            rw [insert_eq, show x.tree.add (x.choose (.given id)).1 value = _ from hadd]
            rfl
          rw [insertAll, hinsert, ok_bind]
          dsimp only
          rw [ih (x := { x with tree := t₁ }) hrest hothers]
          rfl

/-- An index without entries has none in its ledger either. -/
theorem lookUp_eq_none_of_isEmpty {L : Ledger} (hr : x.tree.Records L) (h : x.tree.Sound)
    (hempty : x.isEmpty = true) (id : Int64) : L.lookUp id = none := by
  have hids : x.tree.ids.isEmpty = true := by
    rw [Std.TreeMap.isEmpty_eq_size_eq_zero]
    exact hempty
  rw [hr.lookUp_eq h, Std.TreeMap.getElem?_of_isEmpty hids]
  rfl

/-- A log that is replayed into an empty index gives an index with its entries. -/
theorem exists_replayed {s : Snapshot} {entry : Int64 → Option UInt64} (hlists : s.Lists entry)
    (h : Reachable metric x) (hd : metric.Sortable) (hempty : x.isEmpty = true) :
    ∃ x', x.insertAll (s.entries.map Prod.swap) =
        .ok (x', (s.entries.map Prod.swap).map fun e => .ok e.2) ∧ x'.tree.snapshot = .ok s := by
  obtain ⟨shape, ht⟩ := h.exists_tree
  obtain ⟨hsound, -, rfl⟩ := ht.sound
  obtain ⟨L, hr⟩ := ht.exists_records
  have hnone := lookUp_eq_none_of_isEmpty hr hsound hempty
  obtain ⟨t, answers, L', hok, hsound', -, hr', hfaults, hlook⟩ :=
    hr.exists_additions hsound hd s.entries
  obtain ⟨s', hs', hlists'⟩ := hr'.exists_snapshot hsound'
  have hsame : L'.lookUp = entry := by
    funext id
    rw [hlook, hnone, Option.or_none, hlists.lookup_reverse]
  obtain rfl := (hsame ▸ hlists').unique hlists
  refine ⟨{ x with tree := t }, insertAll_eq ?_ hfaults, hs'⟩
  rw [List.map_map, Prod.swap_swap_eq, List.map_id]
  exact hok

/-! ### Searching -/

/-- Two indexes with the Hamming distance that have the same snapshot and in which nothing waits
answer every query alike. -/
theorem alike_of_hamming {s : Snapshot} (hx : x.tree.Sound) (hy : y.tree.Sound)
    (hxd : x.tree.metric = hamming) (hyd : y.tree.metric = hamming)
    (hxe : x.tree.arrivals = []) (hye : y.tree.arrivals = [])
    (hxs : x.tree.snapshot = .ok s) (hys : y.tree.snapshot = .ok s) (target : UInt64)
    (radius : Float) : x.Alike y target radius := by
  have hscan : ∀ {z : Index}, z.tree.Sound → z.tree.metric = hamming → z.tree.arrivals = [] →
      z.tree.snapshot = .ok s → isRadius radius = true →
        ∃ found, z.query target radius = .ok (.ok found) ∧
          found.Perm ((s.scan hamming target radius).map fun e => (e.1.1, e.2)) := by
    intro z hz hzd hze hzs hradius
    obtain ⟨found, hfound, -, hperm⟩ := hz.exists_scan (hzd ▸ lawful_hamming) hze target radius
    obtain rfl := Except.ok.inj (hzs.symm.trans (Tree.snapshot_eq hz))
    refine ⟨_, ?_, (hzd ▸ hperm).map fun e : Entry × Float => (e.1.1, e.2)⟩
    rw [query, if_pos hradius, hfound, ok_bind, List.map_map]
    rfl
  by_cases hradius : isRadius radius = true
  · obtain ⟨found, hfound, hperm⟩ := hscan hx hxd hxe hxs hradius
    obtain ⟨found', hfound', hperm'⟩ := hscan hy hyd hye hys hradius
    exact .inr ⟨found, found', hfound, hfound', hperm.trans hperm'.symm⟩
  · exact .inl ⟨_, by rw [query, if_neg hradius]; rfl, by rw [query, if_neg hradius]; rfl⟩

/-! ### The round trip -/

/-- **Entries survive being saved and loaded, and being replayed.**  With a sortable metric a tree
can be rebuilt from any entries: nothing waits in it, and it lists the last value of each id in
ascending order. So, for every reachable index, whatever its metric and whether or not flushes have
failed, and every configuration that can be used: its log lists the entries of its snapshot with the
fingerprint first; its saved form is loaded as an index in which nothing waits and which has the
same snapshot, the same log and the same saved form; and its log, replayed into any index without
entries, gives an index with the same snapshot and the same log. With the Hamming distance, the
index once it is flushed and the one that was loaded answer every query alike. The number of entries
must fit into the word in which it is written; only an index in which every id has an entry has
more. -/
theorem saved_and_loaded {metric metric' : Metric} (hd : metric'.Sortable) :
    (∀ (shape : Shape) (entries : List Entry), shape.Sound →
      ∃ t, Tree.restore ⟨entries⟩ shape metric' = .ok (.ok t) ∧ t.pending = 0 ∧
        ∃ s, t.snapshot = .ok s ∧ s.Lists fun id => entries.reverse.lookup id) ∧
    ∀ x, Reachable metric x → x.size < UInt64.size →
      ∃ s bytes log, x.tree.snapshot = .ok s ∧ x.save = .ok bytes ∧ x.replicationLog = .ok log ∧
        log = s.entries.map Prod.swap ∧
        (∀ (config : Config) (source : Source), config.shape.Sound → source.rest = bytes →
          ∃ y, load source config metric' = .ok (.ok y) ∧ y.tree.snapshot = .ok s ∧
            y.replicationLog = .ok log ∧ y.tree.pending = 0 ∧ y.save = .ok bytes ∧
            (metric = hamming → metric' = hamming →
              ∃ x', x.sync = .ok (x', .ok ()) ∧ ∀ target radius, x'.Alike y target radius)) ∧
        ∀ z, Reachable metric' z → z.isEmpty = true →
          ∃ z', z.insertAll log = .ok (z', log.map fun e => .ok e.2) ∧
            z'.tree.snapshot = .ok s ∧ z'.replicationLog = .ok log := by
  constructor
  · intro shape entries hshape
    obtain ⟨t, hrestore, -, -, hempty, hs⟩ := Tree.exists_restored hshape hd ⟨entries⟩
    exact ⟨t, hrestore, by rw [Registry.pending, hempty]; rfl, hs⟩
  · intro x hx hsize
    obtain ⟨shape, ht⟩ := hx.exists_tree
    obtain ⟨hsound, -, rfl⟩ := ht.sound
    obtain ⟨L, hr⟩ := ht.exists_records
    obtain ⟨s, hs, hlists⟩ := hr.exists_snapshot hsound
    obtain ⟨hsave, hlog⟩ := save_and_log hs
    have hcount : s.size < UInt64.size := by
      rw [Tree.snapshot_eq hsound] at hs
      obtain rfl := Except.ok.inj hs
      rw [Snapshot.size, List.length_map, Std.TreeMap.length_toList]
      exact hsize
    refine ⟨s, _, _, hs, hsave, hlog, rfl, fun config source hshape hsource => ?_,
      fun z hz hempty => ?_⟩
    · obtain ⟨y, hload, hysound, hymetric, hyempty, hys⟩ :=
        exists_loaded hlists hcount hsource hshape hd
      obtain ⟨hysave, hylog⟩ := save_and_log hys
      refine ⟨y, hload, hys, hylog, by rw [Registry.pending, hyempty]; rfl, hysave, fun hx hy => ?_⟩
      -- the flush changes no entry, so that the two indexes still have the same snapshot
      obtain ⟨t, hflush, htsound, htmetric, htempty, L', hr', hlook⟩ :=
        hr.exists_flushed hsound (hx ▸ sortable_hamming)
      obtain ⟨s', hs', hlists'⟩ := hr'.exists_snapshot htsound
      obtain rfl := (funext hlook ▸ hlists').unique hlists
      refine ⟨{ x with tree := t }, ?_, fun target radius => ?_⟩
      · rw [sync, hflush]
        rfl
      · exact alike_of_hamming htsound hysound (htmetric.trans hx) (hymetric.trans hy) htempty
          hyempty hs' hys target radius
    · obtain ⟨z', hinsert, hzs⟩ := exists_replayed hlists hz hd hempty
      exact ⟨z', hinsert, hzs, (save_and_log hzs).2⟩

/-- An entry that waits is saved, loaded and replayed; a tree is rebuilt from entries of which one
is replaced. -/
theorem saved_and_loaded_waiting :
    (∃ t, Tree.restore ⟨[(2, 5), (1, 7), (2, 6)]⟩ .smallest hamming = .ok (.ok t) ∧
      t.pending = 0 ∧ ∃ s, t.snapshot = .ok s ∧ (2, 6) ∈ s.entries) ∧
    ∃ x bytes log y z x', Reachable hamming x ∧ x.size = 1 ∧ x.tree.pending = 1 ∧
      x.save = .ok bytes ∧ x.replicationLog = .ok log ∧
      load ⟨bytes, [.upTo 1, .interrupted], none⟩ { shape := .smallest } hamming = .ok (.ok y) ∧
      y.replicationLog = .ok log ∧ y.tree.pending = 0 ∧ y.save = .ok bytes ∧
      usual.insertAll log = .ok (z, log.map fun e => .ok e.2) ∧ z.replicationLog = .ok log ∧
      x.sync = .ok (x', .ok ()) ∧ x'.Alike y 5 2 := by
  obtain ⟨hrestore, hsave⟩ := @saved_and_loaded hamming hamming sortable_hamming
  have husual : Reachable hamming usual :=
    .ofConfig (ofConfig_eq_ok.2 ⟨by decide, rfl⟩ : ofConfig {} hamming = .ok usual)
  have hinsert : (usual.insert 5 (.given 2)).toOption.map (fun r => (r.1.size, r.1.tree.pending)) =
      some (1, 1) := by
    decide +kernel
  constructor
  · obtain ⟨t, ht, hempty, s, hs, hlists⟩ :=
      hrestore .smallest [(2, 5), (1, 7), (2, 6)] Shape.smallest_sound
    exact ⟨t, ht, hempty, s, hs, (hlists.mem_iff 2 6).2 (by decide)⟩
  · cases hx : usual.insert 5 (.given 2) with
    | error breach =>
        rw [hx] at hinsert
        cases hinsert
    | ok r =>
        obtain ⟨x, answer⟩ := r
        rw [hx] at hinsert
        obtain ⟨hsize, hpending⟩ := Prod.mk.inj (Option.some.inj hinsert)
        have hreachable := husual.insert hx
        have hword : x.size < UInt64.size := by
          rw [show x.size = 1 from hsize]
          decide
        obtain ⟨s, bytes, log, -, hbytes, hlog, -, hload, hreplay⟩ := hsave x hreachable hword
        obtain ⟨y, hy, -, hylog, hyempty, hysave, hsame⟩ :=
          hload { shape := .smallest } ⟨bytes, [.upTo 1, .interrupted], none⟩ Shape.smallest_sound
            rfl
        obtain ⟨z, hz, -, hzlog⟩ := hreplay usual husual rfl
        obtain ⟨x', hsync, halike⟩ := hsame rfl rfl
        exact ⟨x, bytes, log, y, z, x', hreachable, hsize, hpending, hbytes, hlog, hy, hylog,
          hyempty, hysave, hz, hzlog, hsync, halike 5 2⟩

end Index

end Vantage
