import Roaring.RunSet

/-! The three encodings of a container and the size model that chooses between them. -/
namespace Roaring

inductive Kind where
  | array
  | bits
  | runs
deriving DecidableEq

namespace Kind

def name : Kind → String
  | .array => "Array"
  | .bits => "Bitmap"
  | .runs => "Run"

/-- The bytes that a set of `cardinality` values in `runCount` runs takes in an encoding; a list of
more than `ArraySet.maxLength` values is no encoding. -/
def size (cardinality runCount : Nat) : Kind → Option Nat
  | .array =>
    if cardinality ≤ ArraySet.maxLength then some (ArraySet.serializedSizeFor cardinality) else none
  | .bits => some BitSet.serializedSize
  | .runs => some (RunSet.serializedSizeFor runCount)

def isSmallest (cardinality runCount : Nat) (kind : Kind) : Bool :=
  match size cardinality runCount kind with
  | none => false
  | some own =>
    [Kind.array, .bits, .runs].all fun other => (size cardinality runCount other).all (own ≤ ·)

/-- The encoding with the fewest bytes. The current one is kept when it is among the smallest; else
a list is preferred to runs and runs to bits. The empty set is a list. -/
def inferBySize (cardinality runCount : Nat) (current : Kind) : Kind :=
  if cardinality = 0 then .array
  else if isSmallest cardinality runCount current then current
  else if isSmallest cardinality runCount .array then .array
  else if isSmallest cardinality runCount .runs then .runs
  else .bits

end Kind

end Roaring
