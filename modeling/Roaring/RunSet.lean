import Roaring.BitSet
import Roaring.Run.Merge
import Roaring.Words.Ranges

/-! Sets of 16-bit values given by their maximal intervals. The list of runs is canonical when the
set is well formed; on other lists every operation still has a definite answer. -/
namespace Roaring

structure RunSet where
  runs : Array Run
deriving DecidableEq

namespace RunSet

def WellFormed (s : RunSet) : Prop := Run.Canonical s.runs.toList

instance (s : RunSet) : Decidable s.WellFormed :=
  inferInstanceAs (Decidable (Run.Canonical s.runs.toList))

def empty : RunSet := ⟨#[]⟩

def full : RunSet := ⟨#[⟨0, 65535⟩]⟩

/-- The values of a range inside `0..65536`. -/
def ofRange (range : Span) : RunSet := if range.isEmpty then empty else ⟨#[.ofSpan range]⟩

/-- The values of ranges that are ordered by start; ranges that overlap or touch are joined. -/
def ofRanges (ranges : Array Span) : RunSet :=
  ⟨Run.coalesceAll ((ranges.toList.filter (fun range => !range.isEmpty)).map Run.ofSpan)⟩

def ofSortedValues (values : Array UInt16) : RunSet :=
  ⟨Run.coalesceAll (values.toList.map Run.point)⟩

def countRuns (s : RunSet) : Nat := s.runs.size

def cardinality (s : RunSet) : Nat := s.runs.foldl (fun n r => n + r.count) 0

def isEmpty (s : RunSet) : Bool := s.runs.isEmpty

def isFull (s : RunSet) : Bool := s.runs == #[⟨0, 65535⟩]

def find (s : RunSet) (v : UInt16) : Nat :=
  Search.partitionPoint s.runs (fun r => r.stop ≤ v.toNat)

def contains (s : RunSet) (v : UInt16) : Bool := s.runs[s.find v]?.any (fun r => r.start ≤ v)

/-- Whether one run holds every value of a range. -/
def containsRange (s : RunSet) (range : Span) : Bool :=
  range.isEmpty ||
    s.runs[s.find range.start.toUInt16]?.any
      (fun r => r.start.toNat ≤ range.start && range.stop ≤ r.stop)

/-- Adds a value and tells whether it was absent. The value joins the run that ends right before it
and the run that starts right behind it. -/
def insert (s : RunSet) (v : UInt16) : RunSet × Bool :=
  let i := s.find v
  let next := s.runs[i]?
  if next.any (fun r => r.start ≤ v) then (s, false)
  else
    let previous := if i = 0 then none else s.runs[i - 1]?
    match previous.filter (fun r => r.stop == v.toNat),
        next.filter (fun r => r.start.toNat == v.toNat + 1) with
    | some p, some n =>
      (⟨(s.runs.setIfInBounds (i - 1) ⟨p.start, n.last - p.start⟩).eraseIdxIfInBounds i⟩, true)
    | some p, none => (⟨s.runs.setIfInBounds (i - 1) ⟨p.start, p.length + 1⟩⟩, true)
    | none, some n => (⟨s.runs.setIfInBounds i ⟨n.start - 1, n.length + 1⟩⟩, true)
    | none, none => (⟨s.runs.insertIdxIfInBounds i (.point v)⟩, true)

/-- Removes a value and tells whether it was present. Its run vanishes, shrinks or splits. -/
def erase (s : RunSet) (v : UInt16) : RunSet × Bool :=
  let i := s.find v
  match s.runs[i]?.filter (fun r => r.start ≤ v) with
  | none => (s, false)
  | some r =>
    if r.length = 0 then (⟨s.runs.eraseIdxIfInBounds i⟩, true)
    else if v = r.start then (⟨s.runs.setIfInBounds i ⟨r.start + 1, r.length - 1⟩⟩, true)
    else if v = r.last then (⟨s.runs.setIfInBounds i ⟨r.start, r.length - 1⟩⟩, true)
    else
      (⟨(s.runs.setIfInBounds i ⟨r.start, v - 1 - r.start⟩).insertIdxIfInBounds (i + 1)
        ⟨v + 1, r.last - (v + 1)⟩⟩, true)

def push (s : RunSet) (v : UInt16) : Checked RunSet :=
  match s.runs.back? with
  | none => .ok ⟨#[.point v]⟩
  | some r =>
    if v < r.last then .error (.pushBelowLast v r.last)
    else if v = r.last then .ok s
    else if v.toNat = r.stop then
      .ok ⟨s.runs.setIfInBounds (s.runs.size - 1) ⟨r.start, r.length + 1⟩⟩
    else .ok ⟨s.runs.push (.point v)⟩

/-- Adds every value of a range: one run takes the place of all that overlap or touch the range. -/
def insertRange (s : RunSet) (range : Span) : Checked RunSet :=
  if range.isEmpty then .ok s
  else
    let lo := Search.partitionPoint s.runs (fun r => r.stop < range.start)
    let hi := Search.partitionPoint s.runs (fun r => r.start.toNat ≤ range.stop)
    if hi < lo then .error .crossedRuns
    else
      let first := if lo < hi then s.runs[lo]? else none
      let last := if lo < hi then s.runs[hi - 1]? else none
      let joined : Span :=
        ⟨first.elim range.start (fun r => min range.start r.start.toNat),
          last.elim range.stop (fun r => max range.stop r.stop)⟩
      .ok ⟨splice s.runs lo hi #[.ofSpan joined]⟩

/-- Removes every value of a range: of the runs that overlap it only the ends outside stay. -/
def eraseRange (s : RunSet) (range : Span) : RunSet :=
  if range.isEmpty then s
  else
    let lo := Search.partitionPoint s.runs (fun r => r.stop ≤ range.start)
    let hi := Search.partitionPoint s.runs (fun r => r.start.toNat < range.stop)
    if hi ≤ lo then s
    else
      match s.runs[lo]?, s.runs[hi - 1]? with
      | some first, some last =>
        let left : Array Run :=
          if first.start.toNat < range.start then #[.ofSpan ⟨first.start.toNat, range.start⟩]
          else #[]
        let right : Array Run :=
          if range.stop < last.stop then #[.ofSpan ⟨range.stop, last.stop⟩] else #[]
        ⟨splice s.runs lo hi (left ++ right)⟩
      | _, _ => s

def rankOnto (v : UInt16) : List Run → Nat → Nat
  | [], n => n
  | r :: rest, n =>
    if v < r.start then n
    else if r.last ≤ v then rankOnto v rest (n + r.count)
    else n + (v - r.start).toNat + 1

def rank (s : RunSet) (v : UInt16) : Nat := rankOnto v s.runs.toList 0

def selectFrom : List Run → Nat → Option UInt16
  | [], _ => none
  | r :: rest, n =>
    if n < r.count then some (r.start + n.toUInt16) else selectFrom rest (n - r.count)

def select (s : RunSet) (n : Nat) : Option UInt16 := selectFrom s.runs.toList n

def min? (s : RunSet) : Option UInt16 := s.runs[0]?.map Run.start

def max? (s : RunSet) : Option UInt16 := s.runs.back?.map Run.last

def values (s : RunSet) : Array UInt16 := s.runs.flatMap Run.values

def ranges (s : RunSet) : Array Span := s.runs.map Run.span

/-- The list of the values; it passes `ArraySet.maxLength` when the set is dense. -/
def toArraySet (s : RunSet) : ArraySet := ⟨s.values⟩

def toBitSet (s : RunSet) : Checked BitSet := BitSet.ofRuns s.runs

def union (s t : RunSet) : RunSet := ⟨Run.union s.runs.toList t.runs.toList⟩

def inter (s t : RunSet) : RunSet := ⟨Run.inter s.runs.toList t.runs.toList⟩

def diff (s t : RunSet) : RunSet := ⟨Run.diff s.runs.toList t.runs.toList⟩

def symmDiff (s t : RunSet) : RunSet := ⟨Run.symmDiff s.runs.toList t.runs.toList⟩

def interCount (s t : RunSet) : Nat := Run.interCount s.runs.toList t.runs.toList

def serializedSizeFor (count : Nat) : Nat := 2 + 4 * count

def serializedSize (s : RunSet) : Nat := serializedSizeFor s.countRuns

/-- Fails at the first pair of neighbours without a gap between them. -/
def checkMerged : List Run → Checked Unit
  | a :: b :: rest =>
    if a.stop < b.start.toNat then checkMerged (b :: rest) else .error (.unmergedRuns a b)
  | _ => .ok ()

def checkInvariants (s : RunSet) : Checked Unit :=
  if s.runs.all (fun r => r.stop ≤ 65536) then checkMerged s.runs.toList else .error .runOverflow

end RunSet

def BitSet.toRunSet (b : BitSet) : RunSet := RunSet.ofRanges b.words.ranges

end Roaring
