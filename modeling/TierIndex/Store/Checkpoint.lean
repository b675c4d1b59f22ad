import TierIndex.HeatMap.Basic
import TierIndex.Store.Folder
import TierIndex.Store.Record

set_option autoImplicit false

/-! # Checkpoints of a heat map

A heat map is saved as one file of records in the data directory. The file is replaced as a
whole: the bytes go to a temporary file beside it, which is then renamed over it, so that a
save which fails leaves the old file as it was. Loading reads and checks all records before
it replaces the zones of the map.
-/

namespace TierIndex

namespace Checkpoint

/-- The name of the file with the records. -/
def fileName : String := "segtable.data"

/-- The name of the temporary file. -/
def tempName : String := fileName ++ ".tmp"

/-- Replace the file by the given bytes, through the temporary file. The temporary file is
removed on failure. -/
def replace (f : Folder) (bytes : List UInt8) : Folder × Except Fault Unit :=
  match f.write tempName bytes with
  | .error e => (f.removeFile tempName, .error (.storage e))
  | .ok written =>
      match written.rename tempName fileName with
      | .error e => (written.removeFile tempName, .error (.storage e))
      | .ok renamed => (renamed, .ok ())

/-- The zones of the file. -/
def read (o : KeyOrder) (f : Folder) : Except Fault (List Zone) :=
  match f.read fileName with
  | .error e => .error (.storage e)
  | .ok bytes => Record.decode o bytes

end Checkpoint

namespace HeatMap

/-- Save the zones of the map, and count them. -/
def save (m : HeatMap) (f : Folder) : Folder × Except Fault Nat :=
  match Record.append [] m.slots with
  | (_, .error e) => (f, .error e)
  | (bytes, .ok n) =>
      let (f', r) := Checkpoint.replace f bytes
      (f', r.map fun _ => n)

/-- The map with the zones of the file in place of its own, and their number. -/
def load (m : HeatMap) (f : Folder) : Except Fault (HeatMap × Nat) :=
  (Checkpoint.read m.order f).map fun zs => (ofZones m.params zs, zs.length)

end HeatMap

end TierIndex
