/-
**The index: a tree with a source of ids.**

An index takes fingerprints with an id or without one, answers searches by id and distance, and
can be saved and loaded. A saved index is a version byte followed by the written form of the
snapshot; only live entries are saved, and loading builds the tree anew.

Main definitions:

* `Vantage.Config`, `Vantage.Index` — how an index is set up, and the index;
* `Index.ofConfig`, `Index.usual` — empty indexes;
* `Index.insert`, `Index.delete`, `Index.lookup`, `Index.query` — entries and searches;
* `Index.sync`, `Index.clear` — handing waiting entries to the nodes, and giving up everything;
* `Index.replicationLog`, `Index.save`, `Index.load` — the entries, as a list and as bytes;
* `Index.usage` — how much the index holds.
-/

import Vantage.Decimal.Shortest
import Vantage.Index.Fault
import Vantage.Index.Mint
import Vantage.Snapshot.Codec
import Vantage.Tree.Census
import Vantage.Tree.Flush

set_option relaxedAutoImplicit false
set_option autoImplicit false

namespace Vantage

/-- How an index is set up. -/
structure Config where
  shape : Shape := {}
  /-- The count before the first id that is generated. -/
  initialCounter : UInt64 := 0
deriving DecidableEq, Repr

/-- An index of fingerprints. -/
structure Index where
  tree : Tree
  mint : Mint
  config : Config

/-- Where the id of a new entry comes from. -/
inductive IdChoice where
  | given (id : Int64)
  /-- The id is generated from the given readings. -/
  | generated (stamp : Stamp)
deriving DecidableEq, Repr

namespace Index

/-! ### Empty indexes -/

/-- An index without entries, if the shape of its tree can be used. -/
def ofConfig (config : Config) (metric : Metric) : Except IndexFault Index := do
  let tree ← (Tree.ofShape config.shape metric).mapError .tree
  return { tree, mint := ⟨config.initialCounter⟩, config }

/-- An index without entries for Hamming distances, with the usual shape. -/
def usual : Index := { tree := .fresh {} hamming, mint := {}, config := {} }

/-! ### Entries -/

/-- The number of ids that have an entry. -/
def size (x : Index) : Nat := x.tree.size

/-- No id has an entry. -/
def isEmpty (x : Index) : Bool := x.size == 0

/-- The id of a new entry; to generate one advances the counter. -/
def choose (x : Index) : IdChoice → Int64 × Index
  | .given id => (id, x)
  | .generated stamp =>
    let (id, mint) := x.mint.next stamp
    (id, { x with mint })

/-- Adds an entry and returns its id. The entry is found by searches after the next flush, which
this insertion may set off. -/
def insert (x : Index) (value : UInt64) (choice : IdChoice) :
    Except Breach (Index × Except IndexFault Int64) := do
  let (id, x) := x.choose choice
  let (tree, answer) ← x.tree.add id value
  return ({ x with tree }, (answer.map fun _ => id).mapError .tree)

/-- Deletes the entry of an id, and tells whether there was one. -/
def delete (x : Index) (id : Int64) : Except Breach (Index × Bool) := do
  let (tree, point) ← x.tree.delete id
  return ({ x with tree }, point.isSome)

/-- Whether an id has an entry; it may still wait for the next flush. -/
def lookup (x : Index) (id : Int64) : Except Breach Bool := do
  return (← x.tree.lookup? id).isSome

/-- Hands the waiting entries to the nodes. -/
def sync (x : Index) : Except Breach (Index × Except IndexFault Unit) := do
  let (tree, answer) ← x.tree.flush
  return ({ x with tree }, answer.mapError .tree)

/-- Gives up all entries. The counter goes on from where it is. -/
def clear (x : Index) : Except Breach Index := do
  return { x with tree := ← x.tree.clear }

/-! ### Searches -/

/-- A number that is a radius: finite and not below zero. -/
def isRadius (radius : Float) : Bool := radius.isFinite && !(radius < 0)

/-- The ids of the entries within a radius of a fingerprint, with their distances, nearest
first. -/
def query (x : Index) (target : UInt64) (radius : Float) :
    Except Breach (Except IndexFault (List (Int64 × Float))) :=
  if isRadius radius then do
    let found ← x.tree.search target radius
    return .ok (found.hits.map fun hit => (hit.held.point.id, hit.distance))
  else return .error (.badRadius (Decimal.text radius))

/-! ### Saving and loading -/

/-- All entries in ascending order of the id, the fingerprint first. To insert them in this order
into an empty index gives an index with the same entries. -/
def replicationLog (x : Index) : Except Breach (List (UInt64 × Int64)) := do
  return (← x.tree.snapshot).entries.map Prod.swap

/-- The version of the saved form. -/
def version : UInt8 := 0

/-- The saved form of the index. -/
def save (x : Index) : Except Breach (List UInt8) := do
  return version :: (← x.tree.snapshot).encode

/-- Reads the version byte of a saved index. -/
def readVersion (source : Source) : Except IndexFault (UInt8 × Source) :=
  match source.readExactly 1 with
  | .ok (bytes, source) => .ok (bytes.headD 0, source)
  | .error failure => .error (.device failure.text)

/-- Reads the entries of a saved index. -/
def readSaved (source : Source) : Except IndexFault Snapshot := do
  let (found, source) ← readVersion source
  if found = version then
    let (snapshot, _) ← (Snapshot.readFrom source).mapError .tree
    return snapshot
  else throw (.unsupportedEncoding found)

/-- Loads a saved index. -/
def load (source : Source) (config : Config) (metric : Metric) :
    Except Breach (Except IndexFault Index) :=
  match readSaved source with
  | .error fault => return .error fault
  | .ok snapshot => do
    let tree ← Tree.restore snapshot config.shape metric
    return (tree.mapError .tree).map fun tree =>
      { tree, mint := ⟨config.initialCounter⟩, config }

end Index

/-! ### Usage -/

/-- How much an index holds. -/
structure Usage where
  entries : Nat
  nodes : NodeCount
  /-- The estimated size in bytes. -/
  bytes : Nat
  /-- The share of an entry in that size, or zero without entries. -/
  bytesPerEntry : Float

/-- How much the index holds. -/
def Index.usage (x : Index) : Usage where
  entries := x.size
  nodes := x.tree.nodeCount
  bytes := x.tree.estimatedBytes
  bytesPerEntry :=
    if x.size = 0 then 0 else Float.ofNat x.tree.estimatedBytes / Float.ofNat x.size

end Vantage
