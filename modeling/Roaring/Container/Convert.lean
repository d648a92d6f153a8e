import Roaring.Container.Basic

/-! Re-encoding of containers. The values never change; conversions of runs to bits need the runs to
lie inside the domain. -/
namespace Roaring.Container

/-- A container seen in some encoding: shared with the container when it is stored that way. -/
structure View (α : Type) where
  encoded : α
  shared : Bool

/-- The list of values; it must be one that memory could hold, which a wrong cardinality of bits can
put in doubt. -/
def bitsToArray (b : BitSet) : Checked ArraySet :=
  if b.cardinality < 1 <<< 62 then .ok b.toArraySet else .error .overCapacity

def toArraySet : Container → Checked (View ArraySet)
  | .array s => .ok ⟨s, true⟩
  | .bits b => return ⟨← bitsToArray b, false⟩
  | .runs r => .ok ⟨r.toArraySet, false⟩

def toBitSet : Container → Checked (View BitSet)
  | .array s => .ok ⟨.ofSortedValues s.values, false⟩
  | .bits b => .ok ⟨b, true⟩
  | .runs r => return ⟨← r.toBitSet, false⟩

def toRunSet : Container → View RunSet
  | .array s => ⟨.ofSortedValues s.values, false⟩
  | .bits b => ⟨b.toRunSet, false⟩
  | .runs r => ⟨r, true⟩

def sharedViews (c : Container) : Checked (Bool × Bool × Bool) := do
  return ((← c.toArraySet).shared, (← c.toBitSet).shared, c.toRunSet.shared)

/-- As a release build converts. A debug build stops where more than `ArraySet.maxLength` values are to
become a list. -/
def convertTo (c : Container) (target : Kind) : Checked Container :=
  if c.kind = target then .ok c
  else
    match target with
    | .array => return .array (← c.toArraySet).encoded
    | .bits => return .bits (← c.toBitSet).encoded
    | .runs => .ok (.runs c.toRunSet.encoded)

/-- More runs than this, and bits take no more bytes than runs. -/
def runLimit : Nat := (BitSet.serializedSize - 2) / 4

/-- The encoding that `optimize` would choose. For dense bits the runs are counted only until it is
clear that they are too many. -/
def inferOptimalKind (c : Container) : Kind :=
  match c with
  | .bits b =>
    if ArraySet.maxLength < b.cardinality ∧ b.words.countRunsExceeds runLimit then .bits
    else Kind.inferBySize c.cardinality c.countRuns c.kind
  | _ => Kind.inferBySize c.cardinality c.countRuns c.kind

def optimize (c : Container) : Checked Container := c.convertTo c.inferOptimalKind

def runOptimize (c : Container) : Checked (Container × Bool) := do
  return (← c.optimize, c.inferOptimalKind != c.kind)

def ofRuns (r : RunSet) : Checked Container := (Container.runs r).optimize

def ofRange (range : Span) : Checked Container :=
  if range.isEmpty then .ok empty else ofRuns (.ofRange range)

/-- Turns runs into a list or bits, by cardinality, and tells whether there were runs. -/
def removeRunCompression : Container → Checked (Container × Bool)
  | .runs r =>
    if r.cardinality ≤ ArraySet.maxLength then .ok (.array r.toArraySet, true)
    else return (.bits (← r.toBitSet), true)
  | c => .ok (c, false)

end Roaring.Container
