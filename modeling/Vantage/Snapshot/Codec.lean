/-
**The written form of a snapshot.**

A snapshot is written as the number of its entries followed by the entries, each as its id and its
fingerprint; all of them are 64-bit words of eight bytes, least significant byte first.

Main definitions:

* `Snapshot.encode` — the written form;
* `Snapshot.writeTo`, `Snapshot.readFrom` — writing to a sink and reading from a source;
* `Snapshot.shortfall` — a source that ends early is reported with the number of entries announced
  and of those that were complete.

Main results:

* `Snapshot.length_encode` — the length of the written form.
-/

import Vantage.Fault
import Vantage.Snapshot
import Vantage.Stream
import Vantage.Words

set_option relaxedAutoImplicit false
set_option autoImplicit false

namespace Vantage

namespace Snapshot

/-! ### Writing -/

/-- The words of the written form, in order. -/
def words (s : Snapshot) : List UInt64 :=
  UInt64.ofNat s.size :: s.entries.flatMap fun (id, value) => [id.toUInt64, value]

/-- The written form. -/
def encode (s : Snapshot) : List UInt8 := s.words.flatMap wordBytes

theorem length_flatMap_wordBytes (words : List UInt64) :
    (words.flatMap wordBytes).length = 8 * words.length := by
  induction words with
  | nil => rfl
  | cons x words ih => simp [ih]; omega

/-- The written form has the size that is announced for it. -/
theorem length_encode (s : Snapshot) : s.encode.length = s.encodedSize := by
  have : (s.entries.flatMap fun (id, value) => [id.toUInt64, value]).length =
      2 * s.entries.length := by
    induction s.entries with
    | nil => rfl
    | cons e rest ih => simp [ih]; omega
  rw [encode, length_flatMap_wordBytes, words, List.length_cons, this, encodedSize, size]
  omega

/-- Writes words one after another, and stops at the first that cannot be written. -/
def writeWords (sink : Sink) : List UInt64 → Sink × Except String Unit
  | [] => (sink, .ok ())
  | x :: rest =>
    match sink.writeAll (wordBytes x) with
    | (sink, .ok ()) => writeWords sink rest
    | (sink, .error text) => (sink, .error text)

/-- Writes the snapshot to a sink and flushes it. The sink is returned also when it fails. -/
def writeTo (s : Snapshot) (sink : Sink) : Sink × Except Fault Unit :=
  match writeWords sink s.words with
  | (sink, .ok ()) => (sink, sink.flush.mapError .device)
  | (sink, .error text) => (sink, .error (.device text))

/-! ### Reading -/

/-- What is reported when reading fails, if `actual` of `expected` entries have been read. A failure
of the kind that says that there is too little to read counts as the end of the source. -/
def shortfall (expected actual : UInt64) (failure : Failure) : Fault :=
  if failure.kind = .unexpectedEnd then .snapshotTruncated expected actual
  else .device failure.text

/-- Reads one word of an entry, or of the count before any entry. -/
def readWord (source : Source) (expected actual : UInt64) : Except Fault (UInt64 × Source) :=
  match source.readExactly 8 with
  | .ok (bytes, source) => .ok (wordOf bytes, source)
  | .error failure => .error (shortfall expected actual failure)

/-- Reads so many further entries, when `actual` of `expected` have been read. -/
def readEntries (expected : UInt64) :
    Nat → UInt64 → Source → Except Fault (List Entry × Source)
  | 0, _, source => .ok ([], source)
  | n + 1, actual, source => do
    let (id, source) ← readWord source expected actual
    let (value, source) ← readWord source expected actual
    let (rest, source) ← readEntries expected n (actual + 1) source
    return ((id.toInt64, value) :: rest, source)

/-- Reads a snapshot from a source; what follows it is left in the source. -/
def readFrom (source : Source) : Except Fault (Snapshot × Source) := do
  let (expected, source) ← readWord source 0 0
  let (entries, source) ← readEntries expected expected.toNat 0 source
  return (⟨entries⟩, source)

end Snapshot

end Vantage
