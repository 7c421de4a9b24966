/-
**Byte streams that move a few bytes at a time and may fail.**

A source hands out some of the bytes asked for with every read, and may be interrupted in between;
at its end it either has nothing more to give or fails. A sink takes as many bytes per write as it
pleases, fails once its room is used up, and may fail once more when it is flushed.

Main definitions:

* `Vantage.Failure`, `Vantage.FailureKind` — what a stream fails with;
* `Vantage.Source`, `Source.read`, `Source.readExactly` — reading, once or until a number of bytes
  is complete;
* `Vantage.Sink`, `Sink.accepts`, `Sink.writeAll`, `Sink.flush` — writing, once or until all bytes
  are taken, and flushing.

Main results:

* `Source.reads` — what comes of a read;
* `Source.exists_readExactly` — a number of bytes is complete exactly when so many are left, however
  few come per read and however often reads are interrupted.
-/

set_option relaxedAutoImplicit false
set_option autoImplicit false

namespace Vantage

/-! ### Failures -/

/-- The kinds of failure that a reader tells apart. -/
inductive FailureKind where
  /-- There was less to read than there should be. -/
  | unexpectedEnd
  | other
deriving DecidableEq, Repr

/-- What a stream fails with. -/
structure Failure where
  kind : FailureKind
  text : String
deriving DecidableEq, Repr

/-! ### Sources -/

/-- What a read of a source does. -/
inductive Turn where
  /-- The read is interrupted and hands out nothing; it may be tried again. -/
  | interrupted
  /-- The read hands out at most so many bytes, but one of them at least. -/
  | upTo (most : Nat)
deriving DecidableEq, Repr

/-- A source of bytes. -/
structure Source where
  /-- The bytes not yet handed out. -/
  rest : List UInt8
  /-- What the next reads do; those that come after them hand out whatever they are asked for. -/
  turns : List Turn := []
  /-- What a read at the end fails with; without it the source simply ends. -/
  failure : Option Failure := none

/-- What comes of a read. -/
inductive Reading where
  | bytes (got : List UInt8)
  | interrupted
  | failed (failure : Failure)

namespace Source

/-- A source that hands out whatever it is asked for, and then ends. -/
def ofBytes (rest : List UInt8) : Source := { rest }

/-- Hands out at most `n` bytes; at the end there are none. -/
def give (s : Source) (n : Nat) : Reading × Source :=
  match s.rest, s.failure with
  | [], some failure => (.failed failure, s)
  | _, _ => (.bytes (s.rest.take n), { s with rest := s.rest.drop n })

/-- Reads at most `n` bytes. -/
def read (s : Source) (n : Nat) : Reading × Source :=
  match s.turns with
  | .interrupted :: turns => (.interrupted, { s with turns })
  | .upTo most :: turns => { s with turns }.give (min n (max 1 most))
  | [] => s.give n

/-- An interrupted read is one turn of the source. -/
theorem length_turns_of_interrupted {s s' : Source} {n : Nat} (h : s.read n = (.interrupted, s')) :
    s'.turns.length < s.turns.length := by
  have hgive : ∀ (s : Source) (n : Nat), (s.give n).1 ≠ .interrupted := by
    intro s n
    unfold give
    split <;> simp
  unfold read at h
  split at h
  next turns hturns =>
    obtain ⟨-, rfl⟩ := Prod.mk.inj h
    simp [hturns]
  next => exact absurd (congrArg Prod.fst h) (hgive _ _)
  next => exact absurd (congrArg Prod.fst h) (hgive _ _)

/-- What is reported of a source that ends before enough bytes are read. -/
def unfilled : Failure := ⟨.unexpectedEnd, "failed to fill whole buffer"⟩

/-- Reads until `n` bytes are complete. A read that is interrupted is tried again. -/
def readExactly (s : Source) (n : Nat) : Except Failure (List UInt8 × Source) :=
  if n = 0 then .ok ([], s)
  else
    match h : s.read n with
    | (.interrupted, s') => s'.readExactly n
    | (.failed failure, _) => .error failure
    | (.bytes [], _) => .error unfilled
    | (.bytes (b :: got), s') =>
      (s'.readExactly (n - (got.length + 1))).map fun (more, s') => (b :: got ++ more, s')
termination_by (n, s.turns.length)
decreasing_by
  · exact .right n (length_turns_of_interrupted h)
  · exact .left _ _ (by omega)

/-- **What comes of a read.** It is interrupted, or finds the source at its end, or hands out one
byte or more. -/
inductive Reads (s : Source) (n : Nat) : Reading → Source → Prop where
  | interrupted {turns : List Turn} : Reads s n .interrupted { s with turns }
  | failed {failure : Failure} {turns : List Turn} (hrest : s.rest = [])
      (hfails : s.failure = some failure) : Reads s n (.failed failure) { s with turns }
  | ended {turns : List Turn} (hrest : s.rest = []) (hends : s.failure = none) :
      Reads s n (.bytes []) { s with turns }
  | bytes {b : UInt8} {got rest : List UInt8} {turns : List Turn}
      (hsplit : s.rest = b :: got ++ rest) (hlt : got.length < n) :
      Reads s n (.bytes (b :: got)) { s with rest, turns }

theorem reads_give (s : Source) {m n : Nat} (hm : m ≠ 0) (hle : m ≤ n) (turns : List Turn) :
    s.Reads n (give { s with turns } m).1 (give { s with turns } m).2 := by
  cases hrest : s.rest with
  | nil =>
      cases hfailure : s.failure with
      | none =>
          have hreads : s.Reads n (.bytes []) { s with turns } := .ended hrest hfailure
          simpa [give, hrest, hfailure] using hreads
      | some failure =>
          have hreads : s.Reads n (.failed failure) { s with turns } := .failed hrest hfailure
          simpa [give, hrest, hfailure] using hreads
  | cons b bytes =>
      obtain ⟨k, rfl⟩ := Nat.exists_eq_succ_of_ne_zero hm
      have hsplit : s.rest = b :: bytes.take k ++ bytes.drop k := by simp [hrest]
      have hlt : (bytes.take k).length < n := by
        rw [List.length_take]
        omega
      have hreads : s.Reads n (.bytes (b :: bytes.take k)) { s with rest := bytes.drop k, turns } :=
        .bytes hsplit hlt
      cases hfailure : s.failure <;> simpa [give, hrest, hfailure] using hreads

theorem reads (s : Source) {n : Nat} (hn : n ≠ 0) : s.Reads n (s.read n).1 (s.read n).2 := by
  unfold read
  split
  next turns _ => exact .interrupted
  next most turns _ => exact s.reads_give (by omega) (by omega) turns
  next => exact s.reads_give hn (Nat.le_refl n) s.turns

/-- **Bytes are read if so many are left**, however few come per read and however often reads are
interrupted; otherwise reading fails with what the source fails with, or because it has ended. -/
theorem exists_readExactly (s : Source) (n : Nat) :
    ∃ turns, s.readExactly n =
      if n ≤ s.rest.length then .ok (s.rest.take n, { s with rest := s.rest.drop n, turns })
      else .error (s.failure.getD unfilled) := by
  -- along the recursion: a read is interrupted, or gets some of the bytes that are still wanted
  fun_induction s.readExactly n with
  | case1 s => exact ⟨s.turns, rfl⟩
  | case2 s n hn s' hread ih =>
      have hreads := s.reads hn
      rw [hread] at hreads
      cases hreads with
      | interrupted => exact ih
  | case3 s n hn failure s' hread =>
      have hreads := s.reads hn
      rw [hread] at hreads
      cases hreads with
      | failed hrest hfails => simp [hrest, hfails, hn]
  | case4 s n hn s' hread =>
      have hreads := s.reads hn
      rw [hread] at hreads
      cases hreads with
      | ended hrest hends => simp [hrest, hends, hn]
  | case5 s n hn b got s' hread ih =>
      have hreads := s.reads hn
      rw [hread] at hreads
      cases hreads with
      | @bytes _ _ rest turns hsplit hlt =>
          obtain ⟨m, rfl⟩ := Nat.exists_eq_add_of_le (show got.length + 1 ≤ n from hlt)
          obtain ⟨turns', ih⟩ := ih
          refine ⟨turns', ?_⟩
          rw [Nat.add_sub_cancel_left] at ih
          rw [Nat.add_sub_cancel_left, ih, hsplit, ← List.length_cons, List.take_length_add_append,
            List.drop_length_add_append, List.length_append]
          by_cases hle : m ≤ rest.length
          · rw [if_pos hle, if_pos (Nat.add_le_add_left hle _)]
            rfl
          · rw [if_neg hle, if_neg (by omega)]
            rfl

end Source

/-! ### Sinks -/

/-- A sink for bytes. -/
structure Sink where
  /-- The bytes taken so far. -/
  taken : Array UInt8 := #[]
  /-- How many more bytes the sink can take; without it there is no limit. -/
  room : Option Nat := none
  /-- The most bytes that a write takes when so many are taken already; at least one is. -/
  pace : Nat → Nat
  /-- What a write fails with once the room is used up. -/
  failure : String
  /-- What flushing fails with, if it does. -/
  flushFailure : Option String := none

namespace Sink

/-- The number of bytes that a write of `n` bytes will take. -/
def accepts (s : Sink) (n : Nat) : Nat :=
  let n := min n (max 1 (s.pace s.taken.size))
  match s.room with
  | some room => min n room
  | none => n

/-- The sink after it has taken the first `n` of the bytes. -/
def take (s : Sink) (n : Nat) (bytes : List UInt8) : Sink :=
  { s with taken := s.taken ++ bytes.take n, room := s.room.map (· - n) }

/-- Writes until all bytes are taken. The sink is returned also when it fails. -/
def writeAll (s : Sink) (bytes : List UInt8) : Sink × Except String Unit :=
  if bytes.isEmpty then (s, .ok ())
  else
    match s.accepts bytes.length with
    | 0 => (s, .error s.failure)
    | n + 1 => (s.take (n + 1) bytes).writeAll (bytes.drop (n + 1))
termination_by bytes.length
decreasing_by
  simp_all only [List.isEmpty_iff, List.length_drop]
  have := List.length_pos_iff.2 ‹¬bytes = []›
  omega

/-- Hands on what has been taken. -/
def flush (s : Sink) : Except String Unit := s.flushFailure.elim (.ok ()) .error

end Sink

end Vantage
