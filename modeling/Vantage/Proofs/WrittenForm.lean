/-
**The written form is read, and nothing else is.**

A sink takes what it has room for, whatever the sizes of the writes; a source gives what it has,
whatever the sizes of the reads. The first eight bytes of a source announce a number of entries, and
the source is accepted exactly when it has sixteen bytes for each of them: these bytes are then the
written form of the snapshot that is read, and what follows them stays in the source. Any other
source ends too early, and what is reported says how many entries it announced and how many of them
were complete; if it fails at its end, this repeats with what it has failed, unless that is a
failure which says that there is too little to read.

Main definitions:

* `Sink.delivers` — how many of a number of bytes a sink takes in all;
* `Source.shortfall` — what is reported of a source that ends too early.

Main results:

* `Sink.writeAll_eq`, `Snapshot.writeTo_eq` — **what reaches a sink**, and whether it fails;
* `Snapshot.exists_encode` — enough bytes are the written form of some snapshot, and others;
* `Snapshot.readEntries_eq_error` — how many entries of a source that ends too early are complete;
* `Snapshot.reads_written_form` — **exactly the written form is read**, and read back.
-/

import Vantage.Proofs.SavedForm

set_option relaxedAutoImplicit false
set_option autoImplicit false

namespace Vantage

/-! ### What reaches a sink -/

namespace Sink

variable (s : Sink)

/-- How many of `n` bytes the sink takes in all. -/
def delivers (n : Nat) : Nat := s.room.elim n (min n)

theorem delivers_le (n : Nat) : s.delivers n ≤ n := by
  unfold delivers
  cases s.room with
  | none => exact Nat.le_refl n
  | some room => exact Nat.min_le_left n room

theorem delivers_of_room (h : s.room = none) (n : Nat) : s.delivers n = n := by
  rw [delivers, h]
  rfl

/-- A write takes no more bytes than the sink takes in all. -/
theorem accepts_le (n : Nat) : s.accepts n ≤ s.delivers n := by
  unfold accepts delivers
  cases s.room with
  | none => exact Nat.min_le_left _ _
  | some room =>
      simp only [Option.elim_some]
      omega

/-- A write takes a byte unless the sink takes none at all. -/
theorem delivers_eq_zero {n : Nat} (h : s.accepts n = 0) : s.delivers n = 0 := by
  unfold accepts at h
  unfold delivers
  cases hroom : s.room with
  | none =>
      simp only [hroom] at h
      simp only [Option.elim_none]
      omega
  | some room =>
      simp only [hroom] at h
      simp only [Option.elim_some]
      omega

@[simp] theorem take_zero (bytes : List UInt8) : s.take 0 bytes = s := by
  obtain ⟨taken, room, pace, failure⟩ := s
  cases room <;> simp [take]

/-- Taking bytes, and then some of those that are left. -/
theorem take_take (m k : Nat) (bytes : List UInt8) :
    (s.take m bytes).take k (bytes.drop m) = s.take (m + k) bytes := by
  have hroom : (s.room.map (· - m)).map (· - k) = s.room.map (· - (m + k)) := by
    cases s.room <;> simp [Nat.sub_sub]
  have htaken : s.taken ++ bytes.take m ++ (bytes.drop m).take k =
      s.taken ++ bytes.take (m + k) := by
    apply Array.ext'
    rw [Array.toList_appendList, Array.toList_appendList, Array.toList_appendList,
      List.append_assoc, List.take_add]
  simp only [take, hroom, htaken]

/-- What the sink takes in all, it takes with its first write and thereafter. -/
theorem delivers_take (bytes : List UInt8) {m n : Nat} (h : m ≤ s.delivers n) :
    m + (s.take m bytes).delivers (n - m) = s.delivers n := by
  unfold delivers take at *
  cases hroom : s.room with
  | none =>
      simp only [hroom, Option.elim_none, Option.map_none] at h ⊢
      omega
  | some room =>
      simp only [hroom, Option.elim_some, Option.map_some] at h ⊢
      omega

/-- **What reaches a sink**: as many bytes as it has room for, from the front. It fails exactly when
these are not all. -/
theorem writeAll_eq (bytes : List UInt8) :
    s.writeAll bytes = (s.take (s.delivers bytes.length) bytes,
      if s.delivers bytes.length = bytes.length then .ok () else .error s.failure) := by
  fun_induction s.writeAll bytes with
  | case1 s bytes hempty =>
      obtain rfl := List.isEmpty_iff.1 hempty
      have hzero : s.delivers ([] : List UInt8).length = 0 := Nat.le_zero.1 (s.delivers_le 0)
      rw [hzero, take_zero]
      rfl
  | case2 s bytes hne hzero =>
      have hlength : bytes.length ≠ 0 := fun hnil => hne (by simpa using hnil)
      rw [s.delivers_eq_zero hzero, take_zero, if_neg (Ne.symm hlength)]
  | case3 s bytes hne n haccepts ih =>
      -- the first write takes some bytes, and what is written thereafter are those that are left
      have hle : n + 1 ≤ s.delivers bytes.length := by
        have haccepted := s.accepts_le bytes.length
        rwa [haccepts] at haccepted
      have hwhole := s.delivers_take bytes hle
      have hlength := s.delivers_le bytes.length
      rw [ih, List.length_drop, take_take, hwhole]
      have hiff : (s.take (n + 1) bytes).delivers (bytes.length - (n + 1)) =
          bytes.length - (n + 1) ↔ s.delivers bytes.length = bytes.length := by
        omega
      simp only [hiff]
      rfl

/-- Writing bytes and then others is writing them at once. -/
theorem writeAll_append (front back : List UInt8) :
    s.writeAll (front ++ back) =
      match s.writeAll front with
      | (s, .ok ()) => s.writeAll back
      | (s, .error text) => (s, .error text) := by
  have hle := s.delivers_le front.length
  simp only [writeAll_eq, List.length_append]
  by_cases hfront : s.delivers front.length = front.length
  · -- the first bytes find room, and the others go on from there
    have htake : s.take front.length (front ++ back) = s.take front.length front := by
      simp [take]
    have hroom : front.length ≤ s.delivers (front.length + back.length) := by
      unfold delivers at hfront ⊢
      cases hr : s.room with
      | none =>
          simp only [Option.elim_none]
          omega
      | some room =>
          simp only [hr, Option.elim_some] at hfront ⊢
          omega
    have hwhole := s.delivers_take front hroom
    rw [Nat.add_sub_cancel_left] at hwhole
    have hstep := s.take_take front.length ((s.take front.length front).delivers back.length)
      (front ++ back)
    rw [List.drop_left, htake, hwhole] at hstep
    rw [hfront, if_pos rfl]
    simp only [hstep]
    have hiff : s.delivers (front.length + back.length) = front.length + back.length ↔
        (s.take front.length front).delivers back.length = back.length := by
      omega
    simp only [hiff]
    rfl
  · -- the room is used up among the first bytes
    have hsame : s.delivers (front.length + back.length) = s.delivers front.length := by
      unfold delivers at hfront ⊢
      cases hr : s.room with
      | none =>
          rw [hr] at hfront
          exact absurd rfl hfront
      | some room =>
          simp only [hr, Option.elim_some] at hfront ⊢
          omega
    have htake : s.take (s.delivers front.length) (front ++ back) =
        s.take (s.delivers front.length) front := by
      simp only [take, List.take_append_of_le_length hle]
    rw [hsame, htake, if_neg hfront, if_neg (by omega)]

end Sink

namespace Snapshot

/-- Writing words one after another is writing their bytes. -/
theorem writeWords_eq (sink : Sink) (words : List UInt64) :
    writeWords sink words = sink.writeAll (words.flatMap wordBytes) := by
  induction words generalizing sink with
  | nil =>
      rw [List.flatMap_nil, Sink.writeAll]
      rfl
  | cons x rest ih =>
      rw [List.flatMap_cons, Sink.writeAll_append, writeWords]
      rcases sink.writeAll (wordBytes x) with ⟨sink', text | ⟨⟩⟩
      · rfl
      · exact ih sink'

/-- **What reaches a sink of a snapshot** is the front of its written form, as far as there is room;
writing fails, in the words of the sink, when this is not all or when the sink cannot be flushed. -/
theorem writeTo_eq (s : Snapshot) (sink : Sink) :
    s.writeTo sink = (sink.take (sink.delivers s.encodedSize) s.encode,
      if sink.delivers s.encodedSize = s.encodedSize then sink.flush.mapError .device
      else .error (.device sink.failure)) := by
  unfold writeTo
  rw [writeWords_eq, Sink.writeAll_eq, show (s.words.flatMap wordBytes).length = s.encodedSize from
    s.length_encode]
  by_cases hall : sink.delivers s.encodedSize = s.encodedSize
  · rw [if_pos hall, if_pos hall]
    rfl
  · rw [if_neg hall, if_neg hall]
    rfl

/-- A sink without a limit takes the whole written form, and then is flushed. -/
theorem writeTo_of_room (s : Snapshot) {sink : Sink} (h : sink.room = none) :
    s.writeTo sink =
      ({ sink with taken := sink.taken ++ s.encode }, sink.flush.mapError .device) := by
  have htake : sink.take s.encodedSize s.encode =
      { sink with taken := sink.taken ++ s.encode } := by
    rw [Sink.take, ← length_encode, List.take_length, h]
    rfl
  rw [writeTo_eq, sink.delivers_of_room h, if_pos rfl, htake]

end Snapshot

/-! ### Sources that end too early -/

/-- What is reported of a source that ends too early, if `actual` of `expected` entries were
complete. -/
def Source.shortfall (source : Source) (expected actual : UInt64) : Fault :=
  Snapshot.shortfall expected actual (source.failure.getD unfilled)

namespace Snapshot

variable {source : Source} {bytes : List UInt8} (expected actual : UInt64)

/-- A word is read from a source that has eight bytes. -/
theorem exists_readWord_wordOf (h : source.rest = bytes) (hlength : 8 ≤ bytes.length) :
    ∃ turns, readWord source expected actual =
      .ok (wordOf (bytes.take 8), { source with rest := bytes.drop 8, turns }) := by
  obtain ⟨turns, hread⟩ := source.exists_readExactly 8
  refine ⟨turns, ?_⟩
  rw [readWord, hread, h, if_pos hlength]

/-- No word is read from a source that has fewer. -/
theorem readWord_eq_error (h : source.rest = bytes) (hlength : bytes.length < 8) :
    readWord source expected actual = .error (source.shortfall expected actual) := by
  obtain ⟨turns, hread⟩ := source.exists_readExactly 8
  rw [readWord, hread, h, if_neg (Nat.not_le.2 hlength)]
  rfl

/-- **Entries that are not all there** cannot be read; those before the end count as complete when
both of their words are. -/
theorem readEntries_eq_error {n : Nat} (h : source.rest = bytes) (hlength : bytes.length < 16 * n) :
    readEntries expected n actual source =
      .error (source.shortfall expected (actual + UInt64.ofNat (bytes.length / 16))) := by
  induction n generalizing source bytes actual with
  | zero => omega
  | succ n ih =>
      rw [readEntries]
      by_cases hid : bytes.length < 8
      · -- the source ends within an id
        rw [readWord_eq_error _ _ h hid, error_bind, Nat.div_eq_of_lt (by omega),
          show UInt64.ofNat 0 = 0 from rfl, UInt64.add_zero]
      · obtain ⟨turns, hword⟩ := exists_readWord_wordOf expected actual h (by omega)
        rw [hword, ok_bind]
        dsimp only
        have hafter : ({ source with rest := bytes.drop 8, turns } : Source).rest =
            bytes.drop 8 := rfl
        by_cases hvalue : bytes.length < 16
        · -- the source ends within a fingerprint
          rw [readWord_eq_error expected actual hafter
            (by rw [List.length_drop]; omega), error_bind, Nat.div_eq_of_lt hvalue,
            show UInt64.ofNat 0 = 0 from rfl, UInt64.add_zero]
          rfl
        · -- one entry is complete, and the others are not
          obtain ⟨turns', hword'⟩ := exists_readWord_wordOf expected actual hafter
            (by rw [List.length_drop]; omega)
          have hrest := ih (actual + 1) (show ({ source with
              rest := (bytes.drop 8).drop 8, turns := turns' } : Source).rest = _ from rfl) (by
              simp only [List.length_drop]
              omega)
          have hcount : bytes.length / 16 = 1 + (bytes.length - 8 - 8) / 16 := by omega
          rw [hword', ok_bind]
          dsimp only
          rw [hrest, error_bind, hcount, UInt64.ofNat_add, ← UInt64.add_assoc]
          simp only [List.length_drop]
          rfl

/-! ### Bytes that are a written form -/

/-- Sixteen bytes for each of a number of entries are the words of such entries. -/
theorem exists_entries {n : Nat} (hlength : bytes.length = 16 * n) :
    ∃ entries : List Entry, entries.length = n ∧
      (entries.flatMap fun e => [e.1.toUInt64, e.2]).flatMap wordBytes = bytes := by
  induction n generalizing bytes with
  | zero =>
      obtain rfl := List.length_eq_zero_iff.1 hlength
      exact ⟨[], rfl, rfl⟩
  | succ n ih =>
      have hleft : ((bytes.drop 8).drop 8).length = 16 * n := by
        simp only [List.length_drop]
        omega
      obtain ⟨rest, hrest, hbytes⟩ := ih hleft
      have hid : wordBytes (wordOf (bytes.take 8)) = bytes.take 8 :=
        wordBytes_wordOf (by rw [List.length_take]; omega)
      have hvalue : wordBytes (wordOf ((bytes.drop 8).take 8)) = (bytes.drop 8).take 8 :=
        wordBytes_wordOf (by rw [List.length_take, List.length_drop]; omega)
      refine ⟨((wordOf (bytes.take 8)).toInt64, wordOf ((bytes.drop 8).take 8)) :: rest,
        by rw [List.length_cons, hrest], ?_⟩
      simp only [List.flatMap_cons, List.flatMap_append, List.flatMap_nil, List.append_nil,
        UInt64.toUInt64_toInt64, hid, hvalue, hbytes, List.append_assoc, List.take_append_drop]

/-- **Enough bytes are the written form of a snapshot, and others**: eight that announce a number of
entries, and sixteen for each of them. -/
theorem exists_encode {n : Nat} (hcount : numberOf (bytes.take 8) = n)
    (hlength : 8 + 16 * n ≤ bytes.length) :
    ∃ s : Snapshot, s.size = n ∧ s.encode = bytes.take (8 + 16 * n) := by
  have height : (bytes.take 8).length = 8 := by
    rw [List.length_take]
    omega
  have hleft : ((bytes.drop 8).take (16 * n)).length = 16 * n := by
    rw [List.length_take, List.length_drop]
    omega
  obtain ⟨entries, hsize, hentries⟩ := exists_entries hleft
  refine ⟨⟨entries⟩, hsize, ?_⟩
  have hword : wordBytes (UInt64.ofNat entries.length) = bytes.take 8 := by
    rw [hsize, ← hcount]
    exact wordBytes_wordOf height
  rw [encode, words, List.flatMap_cons, List.take_add]
  exact congrArg₂ (· ++ ·) hword hentries

/-- The number of entries that is announced fits into a word. -/
theorem numberOf_take_lt (bytes : List UInt8) : numberOf (bytes.take 8) < UInt64.size := by
  have hlt := numberOf_lt (bytes.take 8)
  have hle : (bytes.take 8).length ≤ 8 := List.length_take_le 8 bytes
  exact hlt.trans_le (Nat.pow_le_pow_right (by decide) hle)

/-- A source that announces more entries than it has is not read. -/
theorem readFrom_eq_error {n : Nat} (h : source.rest = bytes)
    (hcount : numberOf (bytes.take 8) = n) (height : 8 ≤ bytes.length)
    (hlength : bytes.length < 8 + 16 * n) :
    readFrom source = .error (source.shortfall (UInt64.ofNat n)
      (UInt64.ofNat ((bytes.length - 8) / 16))) := by
  have hword : wordOf (bytes.take 8) = UInt64.ofNat n := by rw [wordOf, hcount]
  have hnat : (UInt64.ofNat n).toNat = n := by
    rw [UInt64.toNat_ofNat', Nat.mod_eq_of_lt (hcount ▸ numberOf_take_lt bytes)]
  obtain ⟨turns, hfirst⟩ := exists_readWord_wordOf 0 0 h height
  have hafter : ({ source with rest := bytes.drop 8, turns } : Source).rest = bytes.drop 8 := rfl
  have hentries := readEntries_eq_error (UInt64.ofNat n) 0 (n := n) hafter (by
      rw [List.length_drop]
      omega)
  rw [readFrom, hfirst, ok_bind]
  dsimp only
  rw [hword, hnat, hentries, error_bind, List.length_drop, UInt64.zero_add]
  rfl

/-- **Exactly the written form is read.**  Let the first eight bytes of a source announce `n`
entries, whatever `n`. However few bytes come per read and however often reads are interrupted, a
source with fewer than eight bytes is refused, and so is one with fewer than sixteen for each entry;
what is reported are the numbers of entries that were announced and that were complete, or, if the
source fails at its end otherwise than for want of bytes, with what it fails. Any other source is
accepted: the snapshot that is read is written as the bytes that were consumed, and the others stay
in the source. And what was written of a snapshot is read back from in front of any bytes, if the
number of its entries fits into the word in which it is written. -/
theorem reads_written_form (bytes : List UInt8) {n : Nat} (hcount : numberOf (bytes.take 8) = n) :
    (bytes.length < 8 → ∀ source : Source, source.rest = bytes →
      readFrom source = .error (source.shortfall 0 0)) ∧
    (8 ≤ bytes.length → bytes.length < 8 + 16 * n → ∀ source : Source, source.rest = bytes →
      readFrom source = .error (source.shortfall (UInt64.ofNat n)
        (UInt64.ofNat ((bytes.length - 8) / 16)))) ∧
    (8 + 16 * n ≤ bytes.length → ∃ s : Snapshot, s.size = n ∧
      (∀ source : Source, source.rest = bytes → ∃ turns,
        readFrom source = .ok (s, { source with rest := bytes.drop (8 + 16 * n), turns })) ∧
      ∀ sink : Sink, sink.room = none → sink.flushFailure = none →
        s.writeTo sink = ({ sink with taken := sink.taken ++ bytes.take (8 + 16 * n) }, .ok ())) ∧
    ∀ (s : Snapshot) (more : List UInt8), s.size < UInt64.size →
      ∀ sink : Sink, sink.taken = #[] → sink.room = none → sink.flushFailure = none →
        (s.writeTo sink).2 = .ok () ∧
        ∀ source : Source, source.rest = (s.writeTo sink).1.taken.toList ++ more →
          ∃ turns, readFrom source = .ok (s, { source with rest := more, turns }) := by
  have hflushed : ∀ sink : Sink, sink.flushFailure = none →
      sink.flush.mapError Fault.device = .ok () := fun sink hnone => by
    rw [Sink.flush, hnone]
    rfl
  refine ⟨fun hshort source h => ?_, fun height hshort source h => ?_, fun hlong => ?_,
    fun s more hsize sink htaken hroom hflush => ?_⟩
  · rw [readFrom, readWord_eq_error _ _ h hshort, error_bind]
  · exact readFrom_eq_error h hcount height hshort
  · obtain ⟨s, hsize, hencode⟩ := exists_encode hcount hlong
    refine ⟨s, hsize, fun source h => ?_, fun sink hroom hflush => ?_⟩
    · refine exists_readFrom_encode _ (hsize.trans_lt (hcount ▸ numberOf_take_lt bytes)) ?_
      rwa [hencode, List.take_append_drop]
    · rw [writeTo_of_room s hroom, hencode, hflushed sink hflush]
  · rw [writeTo_of_room s hroom]
    refine ⟨hflushed sink hflush, fun source h => exists_readFrom_encode source hsize ?_⟩
    rwa [htaken, Array.toList_appendList, List.nil_append] at h

/-- Two entries with one id, of which the second is cut short, and then are all there with a byte to
follow. -/
theorem reads_written_form_two :
    readFrom ⟨[2, 0], [.upTo 1], none⟩ = .error (.snapshotTruncated 0 0) ∧
      readFrom ⟨(encode ⟨[(-1, 2), (-1, 3)]⟩).take 33, [.upTo 3, .interrupted, .upTo 1], none⟩ =
        .error (.snapshotTruncated 2 1) ∧
      readFrom ⟨(encode ⟨[(-1, 2), (-1, 3)]⟩).take 33, [], some ⟨.unexpectedEnd, "cut off"⟩⟩ =
        .error (.snapshotTruncated 2 1) ∧
      readFrom ⟨(encode ⟨[(-1, 2), (-1, 3)]⟩).take 33, [.interrupted], some ⟨.other, "gone"⟩⟩ =
        .error (.device "gone") ∧
      (∃ (s : Snapshot) (turns : List Turn), s.size = 2 ∧
        readFrom ⟨encode ⟨[(-1, 2), (-1, 3)]⟩ ++ [7], [.upTo 3], some ⟨.other, "gone"⟩⟩ =
          .ok (s, ⟨[7], turns, some ⟨.other, "gone"⟩⟩)) ∧
      ∃ turns, readFrom ⟨encode ⟨[(-1, 2), (-1, 3)]⟩ ++ [7], [.upTo 3, .interrupted], none⟩ =
        .ok (⟨[(-1, 2), (-1, 3)]⟩, ⟨[7], turns, none⟩) := by
  obtain ⟨hshort, -⟩ := reads_written_form [2, 0] (n := 2) (by decide)
  obtain ⟨-, hcut, -⟩ :=
    reads_written_form ((encode ⟨[(-1, 2), (-1, 3)]⟩).take 33) (n := 2) (by decide)
  obtain ⟨-, -, hlong, hback⟩ :=
    reads_written_form (encode ⟨[(-1, 2), (-1, 3)]⟩ ++ [7]) (n := 2) (by decide)
  obtain ⟨s, hsize, hread, -⟩ := hlong (by decide)
  obtain ⟨turns, hread⟩ := hread ⟨_, [.upTo 3], some ⟨.other, "gone"⟩⟩ rfl
  obtain ⟨-, hwritten⟩ := hback ⟨[(-1, 2), (-1, 3)]⟩ [7] (by decide)
    ⟨#[], none, fun _ => 1, "", none⟩ rfl rfl rfl
  refine ⟨hshort (by decide) _ rfl, hcut (by decide) (by decide) _ rfl,
    hcut (by decide) (by decide) _ rfl, hcut (by decide) (by decide) _ rfl,
    ⟨s, turns, hsize, hread⟩, hwritten ⟨_, [.upTo 3, .interrupted], none⟩ ?_⟩
  rw [writeTo_of_room _ rfl]
  rfl

/-- A source that fails for want of bytes is not reported in its own words. -/
theorem not_device_of_unexpectedEnd :
    readFrom ⟨[2, 0], [], some ⟨.unexpectedEnd, "cut off"⟩⟩ = .error (.snapshotTruncated 0 0) ∧
      readFrom ⟨[2, 0], [], some ⟨.unexpectedEnd, "cut off"⟩⟩ ≠ .error (.device "cut off") := by
  have hread : readFrom ⟨[2, 0], [], some ⟨.unexpectedEnd, "cut off"⟩⟩ =
      .error (.snapshotTruncated 0 0) := by
    rw [readFrom, readWord_eq_error 0 0 rfl (by decide), error_bind]
    rfl
  refine ⟨hread, fun hdevice => ?_⟩
  cases hread.symm.trans hdevice

end Snapshot

end Vantage
