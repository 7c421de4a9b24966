/-
**Snapshots: the live entries of a tree.**

Main definitions:

* `Vantage.Snapshot` — entries, in any order and possibly with repeated ids; a tree lists its
  entries in ascending order of the id;
* `Snapshot.size`, `Snapshot.isEmpty`, `Snapshot.encodedSize` — its measures.
-/

import Vantage.Point

set_option relaxedAutoImplicit false
set_option autoImplicit false

namespace Vantage

/-- Entries that can be written out and read back. -/
structure Snapshot where
  entries : List Entry := []
deriving DecidableEq, Repr

namespace Snapshot

/-- The number of entries. -/
def size (s : Snapshot) : Nat := s.entries.length

/-- There are no entries. -/
def isEmpty (s : Snapshot) : Bool := s.entries.isEmpty

/-- The number of bytes of the written form: eight for the count and sixteen for each entry. -/
def encodedSize (s : Snapshot) : Nat := 8 + 16 * s.size

end Snapshot

end Vantage
