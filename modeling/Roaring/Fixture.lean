import Roaring.Validation.Check

/-! The raw parts of a bitmap, each of which may be missing, with signed counts that need not fit
the parts. Fixtures express states that the operations never produce; they are judged as they are,
and come to life when the parts fit. -/
namespace Roaring.Fixture
open Validation

inductive RawContainer where
  | array (cardinality : Int32) (content : Option (Array UInt16))
  | bits (cardinality : Int32) (words : Option (Array Word))
  | runs (runCount : Int32) (runs : Option (Array Run))
  | unknown (tag : UInt8)
deriving DecidableEq

structure RawIndex where
  size : Int32
  keys : Option (Array UInt16)
  slots : Option (Array (Option RawContainer))
deriving DecidableEq

structure RawBitmap where
  index : Option RawIndex
deriving DecidableEq

namespace RawContainer

/-- The parts of a live container; a count that does not fit keeps its low 32 bits. -/
def ofContainer : Container → RawContainer
  | .array s => .array (Int32.ofNat s.length) (some s.values)
  | .bits b => .bits b.cached.toInt64.toInt32 (some b.words.toArray)
  | .runs r => .runs (Int32.ofNat r.countRuns) (some r.runs)

def view : RawContainer → ContainerView
  | .array cardinality content => .array cardinality.toInt content
  | .bits cardinality words => .bits cardinality.toInt words
  | .runs runCount parts => .runs runCount.toInt parts
  | .unknown tag => .unknown tag

def validate (c : RawContainer) : Checked Verdict := checkContainer c.view

def length? (count : Int32) : Option Nat := if count.toInt < 0 then none else some count.toInt.toNat

def leading? {α : Type} (xs : Array α) (count : Int32) : Option (Array α) := do
  let n ← length? count
  if n ≤ xs.size then some (xs.take n) else none

def toContainer? : RawContainer → Option Container
  | .array cardinality content => return .array ⟨← leading? (← content) cardinality⟩
  | .bits cardinality words => do
    let n ← length? cardinality
    let words ← words
    if fits : words.size = 1024 then some (.bits ⟨⟨words, fits⟩, n.toUInt64⟩) else none
  | .runs runCount parts => return .runs ⟨← leading? (← parts) runCount⟩
  | .unknown _ => none

def withCount (count : Int32) : RawContainer → RawContainer
  | .array _ content => .array count content
  | .bits _ words => .bits count words
  | .runs _ parts => .runs count parts
  | .unknown tag => .unknown tag

end RawContainer

namespace RawBitmap

def ofBitmap (b : Bitmap) : RawBitmap :=
  ⟨some ⟨Int32.ofNat b.containerCount, some b.keys,
    some (b.entries.map (fun e => some (.ofContainer e.container)))⟩⟩

def container? (r : RawBitmap) (i : Nat) : Option RawContainer := do
  let index ← r.index
  let slots ← index.slots
  (← slots[i]?)

def changeContainer (r : RawBitmap) (i : Nat) (change : RawContainer → RawContainer) : RawBitmap :=
  ⟨r.index.map fun index =>
    { index with slots := index.slots.map (fun slots => slots.modify i (Option.map change)) }⟩

def view (r : RawBitmap) : Option IndexView :=
  r.index.map fun index =>
    ⟨index.size.toInt, index.keys,
      index.slots.map (fun slots => slots.map (Option.map RawContainer.view))⟩

def validate (r : RawBitmap) : Checked Verdict := check r.view

/-- The live bitmap of the first `size` keys and slots, when all parts that takes are there and
fit. -/
def toBitmap? (r : RawBitmap) : Option Bitmap := do
  let index ← r.index
  let keys ← RawContainer.leading? (← index.keys) index.size
  let slots ← RawContainer.leading? (← index.slots) index.size
  let containers ← slots.mapM fun slot => do (← slot).toContainer?
  return ⟨(keys.zip containers).map fun (key, c) => ⟨key, c⟩⟩

end RawBitmap

end Roaring.Fixture
