import Roaring.Bitmap.Basic

/-! The sizes of the serialized form: a header that depends on whether there are runs, then one
payload for each container. -/
namespace Roaring

namespace Codec

/-- With runs, the offsets are written only for at least this many containers. -/
def offsetThreshold : Nat := 4

def writesOffsets (count : Nat) (hasRuns : Bool) : Bool := !hasRuns || offsetThreshold ≤ count

def headerSize (count : Nat) (hasRuns : Bool) : Nat :=
  if hasRuns then
    4 + (count + 7) / 8 + 4 * count + (if offsetThreshold ≤ count then 4 * count else 0)
  else 8 + 8 * count

end Codec

/-- The bytes of the payload of a container once it is encoded as `kind`. Other than runs, a payload
is a list up to `ArraySet.maxLength` values and bits above, whatever the encoding in memory. -/
def Container.payloadSizeAs (c : Container) (kind : Kind) : Nat :=
  if kind = .runs then RunSet.serializedSizeFor c.countRuns
  else if c.cardinality ≤ ArraySet.maxLength then ArraySet.serializedSizeFor c.cardinality
  else BitSet.serializedSize

def Container.payloadSize (c : Container) : Nat := c.payloadSizeAs c.kind

namespace Bitmap

def serializedSize (b : Bitmap) : Nat :=
  Codec.headerSize b.containerCount b.hasRuns +
    b.entries.foldl (fun n e => n + e.container.payloadSize) 0

def serializedSizeAs (b : Bitmap) (kinds : Array Kind) : Nat :=
  Codec.headerSize b.containerCount (kinds.contains .runs) +
    (b.entries.zip kinds).foldl (fun n (e, kind) => n + e.container.payloadSizeAs kind) 0

end Bitmap

end Roaring
