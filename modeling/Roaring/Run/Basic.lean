import Roaring.Span

/-! A run is a non-empty interval of 16-bit values, kept as its first value and its value count
minus one. Its exclusive end can be 65536 and is a natural number. -/
namespace Roaring

/-- The values `start, …, start + length`. -/
structure Run where
  start : UInt16
  length : UInt16
deriving DecidableEq, Inhabited

namespace Run

def point (v : UInt16) : Run := ⟨v, 0⟩

/-- The run that covers a non-empty span inside `0..65536`. -/
def ofSpan (s : Span) : Run := ⟨s.start.toUInt16, (s.stop - s.start - 1).toUInt16⟩

def last (r : Run) : UInt16 := r.start + r.length

def stop (r : Run) : Nat := r.start.toNat + r.length.toNat + 1

def count (r : Run) : Nat := r.length.toNat + 1

def span (r : Run) : Span := ⟨r.start.toNat, r.stop⟩

def contains (r : Run) (v : UInt16) : Bool := r.start ≤ v && v - r.start ≤ r.length

def values (r : Run) : Array UInt16 :=
  (Array.range' r.start.toNat (r.last.toNat + 1 - r.start.toNat)).map Nat.toUInt16

/-- One run for both when `next` starts inside `r` or right behind it. -/
def coalesce (r next : Run) : Option Run :=
  if r.start ≤ next.start ∧ next.start.toNat ≤ r.stop then
    some (ofSpan ⟨r.start.toNat, max r.stop next.stop⟩)
  else none

instance : ToString Run :=
  ⟨fun r => s!"Run \x7b start: {r.start}, length: {r.length} \x7d"⟩

end Run

end Roaring
