import Roaring.Bitmap.Optimize
import Roaring.Validation.Check

/-! What an observer is told about the work of a bitmap. Notices follow from the results; nothing
depends on them. -/
namespace Roaring
open Validation

inductive Notice where
  /-- Some of the containers changed their encoding. -/
  | reencoded (converted total : Nat)
  /-- A live bitmap was found to be malformed. -/
  | malformed (verdict : Verdict)
  /-- Bytes could not be read. -/
  | rejected (error : Error)
deriving DecidableEq

namespace Notice

def message : Notice → String
  | reencoded converted total => s!"run_optimize re-encoded {converted} of {total} containers"
  | malformed verdict => s!"roaring bitmap failed validation: {verdict.text}"
  | rejected error => s!"rejected serialized roaring bitmap: {error.message}"

/-- A pass that changed nothing goes without notice. -/
def ofOptimized (o : Bitmap.Optimized) : List Notice :=
  if o.converted = 0 then [] else [reencoded o.converted o.bitmap.containerCount]

def ofVerdict (v : Verdict) : List Notice := if v.isValid then [] else [malformed v]

def ofDecoded {α : Type} : Except Error α → List Notice
  | .ok _ => []
  | .error e => [rejected e]

/-- Reading with validation tells of the reading, then of the validation. -/
def ofValidated (bytes : List UInt8) : Checked (List Notice) :=
  match Bitmap.deserializeSlice bytes with
  | .error e => .ok [rejected e]
  | .ok b => return ofVerdict (← b.validate)

end Notice

end Roaring
