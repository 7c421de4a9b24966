/-
**Faults of an index.**

Main definitions:

* `Vantage.IndexFault` — what an index may report: a fault of its tree, a text that does not denote
  what it should, or a saved index that cannot be read;
* `IndexFault.message` — their wording;
* `IndexFault.dropped` — the entries lost with a batch.
-/

import Vantage.Fault
import Vantage.Text.Quoted

set_option relaxedAutoImplicit false
set_option autoImplicit false

namespace Vantage

/-- A fault reported by an index. -/
inductive IndexFault where
  | tree (fault : Fault)
  /-- The text does not denote an id. -/
  | badId (text : String)
  /-- The text does not denote a radius. -/
  | badRadius (text : String)
  /-- The text does not denote a fingerprint. -/
  | badFingerprint (text : String)
  /-- A saved index begins with a version that is not known. -/
  | unsupportedEncoding (version : UInt8)
  /-- Reading or writing failed, in the words of the device. -/
  | device (text : String)
deriving DecidableEq, Repr

namespace IndexFault

/-- The wording of a fault; texts that could not be read are quoted. -/
def message : IndexFault → String
  | tree fault => "tree: " ++ fault.message
  | badId text => "unable to parse id value " ++ Text.quote text
  | badRadius text =>
    "invalid radius " ++ Text.quote text ++ ": expected a finite, non-negative number"
  | badFingerprint text => "unable to parse fingerprint " ++ Text.quote text
  | unsupportedEncoding version => "unsupported encoding version " ++ toString version.toNat
  | device text => text

/-- The entries that were dropped with a batch; none for any other fault. -/
def dropped : IndexFault → List Entry
  | tree fault => fault.dropped
  | _ => []

end IndexFault

end Vantage
