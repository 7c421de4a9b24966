/-
**A snapshot that was written only in part is never taken for a whole one.**

A sink that has less room than the written form takes the front of it and fails. What has reached
the sink announces all entries of the snapshot, as soon as it has the eight bytes of the number, and
has fewer bytes than these entries need; so it is refused, wherever between two words or within one
the cut falls, and the entries that are reported as complete are those that reached the sink whole.

Main results:

* `Snapshot.numberOf_take_encode` — the front of a written form announces its number of entries;
* `Snapshot.readFrom_take_encode` — **what is read from the front of a written form**;
* `Snapshot.torn_writes_detected` — **a write that fails is found out** when it is read back.
-/

import Vantage.Proofs.WrittenForm

set_option relaxedAutoImplicit false
set_option autoImplicit false

namespace Vantage

namespace Snapshot

variable {s : Snapshot} {source : Source} {room : Nat}

/-- A sink with room for so many bytes takes as many of the written form, or all of it. -/
theorem taken_writeTo (s : Snapshot) {sink : Sink} (h : sink.room = some room) :
    (s.writeTo sink).1.taken = sink.taken ++ s.encode.take (min room s.encodedSize) := by
  rw [writeTo_eq, Sink.delivers, h, Option.elim_some, Nat.min_comm]
  rfl

/-- Writing fails exactly when there is no room for the whole written form, or when the sink cannot
be flushed. -/
theorem writeTo_eq_error_iff (s : Snapshot) {sink : Sink} (h : sink.room = some room) :
    (∃ fault, (s.writeTo sink).2 = .error fault) ↔
      room < s.encodedSize ∨ sink.flushFailure.isSome := by
  rw [writeTo_eq, Sink.delivers, h, Option.elim_some]
  by_cases hroom : room < s.encodedSize
  · rw [if_neg (by omega)]
    exact iff_of_true ⟨_, rfl⟩ (.inl hroom)
  · rw [if_pos (Nat.min_eq_left (Nat.le_of_not_lt hroom)), Sink.flush]
    cases hflush : sink.flushFailure with
    | none => simp [Except.mapError, hroom]
    | some text => exact iff_of_true ⟨_, rfl⟩ (.inr rfl)

/-- The front of a written form announces the number of entries, if it fits into a word. -/
theorem numberOf_take_encode (hsize : s.size < UInt64.size) (hroom : 8 ≤ room) :
    numberOf ((s.encode.take room).take 8) = s.size := by
  have hword : s.encode.take 8 = wordBytes (.ofNat s.size) := by
    rw [encode, words, List.flatMap_cons, List.take_left' (length_wordBytes _)]
  rw [List.take_take, Nat.min_eq_left hroom, hword, wordBytes, numberOf_bytesOf,
    UInt64.toNat_ofNat_of_lt' hsize]
  exact Nat.mod_eq_of_lt hsize

/-- **What is read from the front of a written form**, if it is not all of it: no snapshot, but how
many entries were announced and how many of them are complete. -/
theorem readFrom_take_encode (hsize : s.size < UInt64.size) (hroom : room < s.encodedSize)
    (h : source.rest = s.encode.take room) :
    readFrom source = .error (if room < 8 then source.shortfall 0 0
      else source.shortfall (.ofNat s.size) (.ofNat ((room - 8) / 16))) := by
  have hlength : (s.encode.take room).length = room := by
    rw [List.length_take, length_encode]
    omega
  split
  next hshort =>
    rw [readFrom, readWord_eq_error _ _ h (hlength.trans_lt hshort), error_bind]
  next hlong =>
    have hcount := numberOf_take_encode hsize (Nat.le_of_not_lt hlong)
    rw [encodedSize] at hroom
    rw [readFrom_eq_error h hcount (by omega) (by omega), hlength]

/-- **A torn write is detected.**  A sink with room for so many bytes takes the front of the written
form, however few bytes it takes per write; writing fails exactly when this is not all, or when the
sink cannot be flushed, if it is one of those that can fail there too. What has reached a sink
without room for the rest is refused when it is read back, however few bytes come per read, and what
is reported are the number of entries of the snapshot and of those that reached the sink whole, or
none of either if not even the number of entries has. -/
theorem torn_writes_detected (s : Snapshot) {sink : Sink} (h : sink.room = some room) :
    s.encode.length = s.encodedSize ∧
    (s.writeTo sink).1.taken = sink.taken ++ s.encode.take (min room s.encodedSize) ∧
    ((∃ fault, (s.writeTo sink).2 = .error fault) ↔
      room < s.encodedSize ∨ sink.flushFailure.isSome) ∧
    (s.size < UInt64.size → room < s.encodedSize → sink.taken = #[] →
      ∀ source : Source, source.rest = (s.writeTo sink).1.taken.toList → source.failure = none →
        (room < 8 → readFrom source = .error (.snapshotTruncated 0 0)) ∧
        (8 ≤ room → ∃ expected actual : UInt64,
          readFrom source = .error (.snapshotTruncated expected actual) ∧
          expected.toNat = s.size ∧ actual.toNat = (room - 8) / 16)) := by
  refine ⟨s.length_encode, s.taken_writeTo h, s.writeTo_eq_error_iff h,
    fun hsize hroom htaken source hsource hends => ?_⟩
  rw [s.taken_writeTo h, htaken, Array.toList_appendList, List.nil_append,
    Nat.min_eq_left hroom.le] at hsource
  have hread := readFrom_take_encode hsize hroom hsource
  have hreport : ∀ expected actual,
      source.shortfall expected actual = .snapshotTruncated expected actual := fun _ _ => by
    rw [Source.shortfall, hends]
    rfl
  rw [hreport, hreport] at hread
  refine ⟨fun hshort => by rw [hread, if_pos hshort], fun hlong =>
    ⟨_, _, by rw [hread, if_neg (Nat.not_lt.2 hlong)], ?_, ?_⟩⟩
  · exact UInt64.toNat_ofNat_of_lt' hsize
  · rw [encodedSize] at hroom
    exact UInt64.toNat_ofNat_of_lt' (lt_trans (by omega) hsize)

/-- Three entries, of which two and a half or not even the number are written. -/
theorem torn_writes_detected_three :
    (∃ fault, (writeTo ⟨[(1, 1), (2, 2), (3, 3)]⟩ ⟨#[], some 48, fun _ => 5, "full", none⟩).2 =
      .error fault) ∧
    (∀ source : Source, source.rest =
        (writeTo ⟨[(1, 1), (2, 2), (3, 3)]⟩
          ⟨#[], some 48, fun _ => 5, "full", none⟩).1.taken.toList →
      source.failure = none → ∃ expected actual : UInt64,
        readFrom source = .error (.snapshotTruncated expected actual) ∧
        expected.toNat = 3 ∧ actual.toNat = 2) ∧
    ∀ source : Source, source.rest =
        (writeTo ⟨[(1, 1), (2, 2), (3, 3)]⟩ ⟨#[], some 7, id, "full", none⟩).1.taken.toList →
      source.failure = none → readFrom source = .error (.snapshotTruncated 0 0) := by
  obtain ⟨-, -, hfails, hread⟩ := torn_writes_detected ⟨[(1, 1), (2, 2), (3, 3)]⟩
    (show (⟨#[], some 48, fun _ => 5, "full", none⟩ : Sink).room = some 48 from rfl)
  obtain ⟨-, -, -, hread'⟩ := torn_writes_detected ⟨[(1, 1), (2, 2), (3, 3)]⟩
    (show (⟨#[], some 7, id, "full", none⟩ : Sink).room = some 7 from rfl)
  exact ⟨hfails.2 (.inl (by decide)), fun source hsource hends =>
      (hread (by decide) (by decide) rfl source hsource hends).2 (by decide),
    fun source hsource hends => (hread' (by decide) (by decide) rfl source hsource hends).1
      (by decide)⟩

end Snapshot

end Vantage
