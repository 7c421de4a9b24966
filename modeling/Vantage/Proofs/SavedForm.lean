/-
**What was written is read back.**

The written form of a snapshot is the number of its entries and the entries, word by word. A source
that holds it gives the words back one by one, however few bytes come per read, and what follows the
written form stays in the source.

Main results:

* `Snapshot.exists_readWord`, `Snapshot.exists_readEntries` — words and entries are read back;
* `Snapshot.exists_readFrom_encode` — **so is a whole snapshot**, if its size fits into a word.
-/

import Vantage.Proofs.Outcomes
import Vantage.Snapshot.Codec
import Vantage.Words.Lemmas

set_option relaxedAutoImplicit false
set_option autoImplicit false

namespace Vantage

/-- Bytes in front of others are read, and the others stay in the source. -/
theorem Source.exists_readExactly_append (source : Source) {bytes more : List UInt8}
    (h : source.rest = bytes ++ more) :
    ∃ turns, source.readExactly bytes.length = .ok (bytes, { source with rest := more, turns }) := by
  obtain ⟨turns, hread⟩ := source.exists_readExactly bytes.length
  refine ⟨turns, ?_⟩
  rw [hread, h, if_pos (by simp), List.take_left, List.drop_left]

namespace Snapshot

variable (source : Source) {more : List UInt8} (expected actual : UInt64)

/-- A word that was written is read back. -/
theorem exists_readWord {x : UInt64} (h : source.rest = wordBytes x ++ more) :
    ∃ turns, readWord source expected actual = .ok (x, { source with rest := more, turns }) := by
  obtain ⟨turns, hread⟩ := source.exists_readExactly_append h
  rw [length_wordBytes] at hread
  refine ⟨turns, ?_⟩
  rw [readWord, hread]
  simp

/-- Entries that were written are read back. -/
theorem exists_readEntries {entries : List Entry}
    (h : source.rest = ((entries.flatMap fun e => [e.1.toUInt64, e.2]).flatMap wordBytes) ++ more) :
    ∃ turns, readEntries expected entries.length actual source =
      .ok (entries, { source with rest := more, turns }) := by
  induction entries generalizing source actual with
  | nil =>
      have hrest : source.rest = more := h
      exact ⟨source.turns, by rw [← hrest]; rfl⟩
  | cons e rest ih =>
      obtain ⟨id, value⟩ := e
      simp only [List.flatMap_cons, List.flatMap_append, List.flatMap_nil, List.append_nil,
        List.append_assoc] at h
      obtain ⟨turns₁, hid⟩ := exists_readWord source expected actual h
      obtain ⟨turns₂, hvalue⟩ :=
        exists_readWord { source with rest := _, turns := turns₁ } expected actual rfl
      obtain ⟨turns, hrest⟩ :=
        ih { source with rest := _, turns := turns₂ } (actual + 1) rfl
      refine ⟨turns, ?_⟩
      rw [List.length_cons, readEntries, hid, ok_bind]
      dsimp only
      rw [hvalue, ok_bind]
      dsimp only
      rw [hrest, ok_bind, Int64.toInt64_toUInt64]
      rfl

/-- **A snapshot that was written is read back**, if the number of its entries fits into the word in
which it is written. -/
theorem exists_readFrom_encode {s : Snapshot} (hsize : s.size < UInt64.size)
    (h : source.rest = s.encode ++ more) :
    ∃ turns, readFrom source = .ok (s, { source with rest := more, turns }) := by
  have hcount : (UInt64.ofNat s.size).toNat = s.entries.length := by
    rw [UInt64.toNat_ofNat', Nat.mod_eq_of_lt hsize]
    rfl
  rw [encode, words, List.flatMap_cons, List.append_assoc] at h
  obtain ⟨turns₁, hword⟩ := exists_readWord source 0 0 h
  obtain ⟨turns, hentries⟩ := exists_readEntries { source with rest := _, turns := turns₁ }
    (UInt64.ofNat s.size) 0 rfl
  refine ⟨turns, ?_⟩
  rw [readFrom, hword, ok_bind]
  dsimp only
  rw [hcount, hentries, ok_bind]
  rfl

end Snapshot

end Vantage
