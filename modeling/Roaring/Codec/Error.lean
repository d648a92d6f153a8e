/-! What can go wrong between a bitmap and its bytes. Violations inside a decoded bitmap are not
errors of this kind but verdicts of the validation; only reading with validation turns a verdict
into an error. -/
namespace Roaring

inductive StreamFault where
  | unexpectedEnd
  | invalidData
  | full
  | other
deriving DecidableEq

structure StreamFailure where
  fault : StreamFault
  text : String
deriving DecidableEq

namespace StreamFailure

def truncated : StreamFailure := ⟨.unexpectedEnd, "failed to fill whole buffer"⟩

def noSpace : StreamFailure := ⟨.full, "failed to write whole buffer"⟩

end StreamFailure

inductive Error where
  /-- The first four bytes announce neither form of the format. -/
  | invalidCookie (cookie : UInt32)
  /-- More containers than there are keys. -/
  | invalidContainerCount (count : Nat)
  /-- An element that breaks the rules of the format. -/
  | invalidFormat (element detail : String)
  /-- A failure of the stream while `context` was read. -/
  | stream (context : String) (source : StreamFailure)
deriving DecidableEq

namespace Error

def hexText (n : Nat) : String := "0x" ++ String.ofList (Nat.toDigits 16 n)

def message : Error → String
  | invalidCookie cookie => s!"unrecognized serialization cookie {hexText cookie.toNat}"
  | invalidContainerCount count => s!"container count {count} exceeds the 65536 possible keys"
  | invalidFormat element detail => s!"invalid roaring format for '{element}': {detail}"
  | stream context source => s!"IO error for '{context}': {source.text}"

end Error

end Roaring
