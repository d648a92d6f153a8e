import Roaring.Ascending
import Roaring.Search

/-! Sparse sets of 16-bit values: the values themselves in ascending order. A set of this kind holds
at most `maxLength` values; operations that can pass that bound leave the choice of another encoding
to their caller. -/
namespace Roaring

structure ArraySet where
  values : Array UInt16
deriving DecidableEq

namespace ArraySet

/-- The largest cardinality kept as a list of values. -/
def maxLength : Nat := 4096

structure WellFormed (s : ArraySet) : Prop where
  ascending : s.values.toList.Pairwise (· < ·)
  short : s.values.size ≤ maxLength

instance (s : ArraySet) : Decidable s.WellFormed :=
  decidable_of_iff (s.values.toList.Pairwise (· < ·) ∧ s.values.size ≤ maxLength)
    ⟨fun both => ⟨both.1, both.2⟩, fun formed => ⟨formed.ascending, formed.short⟩⟩

def empty : ArraySet := ⟨#[]⟩

def length (s : ArraySet) : Nat := s.values.size

def isEmpty (s : ArraySet) : Bool := s.values.isEmpty

def locate (s : ArraySet) (v : UInt16) : Search.Place :=
  Search.locate s.values (fun x => compare x v)

def contains (s : ArraySet) (v : UInt16) : Bool :=
  match s.locate v with
  | .hit _ => true
  | .gap _ => false

/-- Adds a value and tells whether it was absent. -/
def insert (s : ArraySet) (v : UInt16) : ArraySet × Bool :=
  match s.locate v with
  | .hit _ => (s, false)
  | .gap i => (⟨s.values.insertIdxIfInBounds i v⟩, true)

def erase (s : ArraySet) (v : UInt16) : ArraySet × Bool :=
  match s.locate v with
  | .hit i => (⟨s.values.eraseIdxIfInBounds i⟩, true)
  | .gap _ => (s, false)

/-- Appends a value that is not below the last one; the last one itself changes nothing. -/
def push (s : ArraySet) (v : UInt16) : Checked ArraySet :=
  match s.values.back? with
  | none => .ok ⟨s.values.push v⟩
  | some last =>
    if last < v then .ok ⟨s.values.push v⟩
    else if v = last then .ok s
    else .error (.pushBelowLast v last)

/-- The indices between which the values of a range stand. -/
def bounds (s : ArraySet) (range : Span) : Nat × Nat :=
  let lo := Search.partitionPoint s.values (fun v => v.toNat < range.start)
  (lo, Search.partitionPointFrom s.values lo (fun v => v.toNat < range.stop))

def lengthAfterInsertRange (s : ArraySet) (range : Span) : Nat :=
  if range.isEmpty then s.length
  else
    let (lo, hi) := s.bounds range
    s.length - (hi - lo) + range.length

/-- Adds every value of a range inside `0..65536`. -/
def insertRange (s : ArraySet) (range : Span) : ArraySet :=
  if range.isEmpty then s
  else
    let (lo, hi) := s.bounds range
    ⟨splice s.values lo hi ((Array.range' range.start range.length).map Nat.toUInt16)⟩

def eraseRange (s : ArraySet) (range : Span) : ArraySet :=
  if range.isEmpty then s
  else
    let (lo, hi) := s.bounds range
    ⟨splice s.values lo hi #[]⟩

def containsRange (s : ArraySet) (range : Span) : Bool :=
  range.isEmpty ||
    let (lo, hi) := s.bounds range
    hi - lo == range.length

def rank (s : ArraySet) (v : UInt16) : Nat := Search.partitionPoint s.values (fun x => x ≤ v)

def select (s : ArraySet) (n : Nat) : Option UInt16 := s.values[n]?

def min? (s : ArraySet) : Option UInt16 := s.values[0]?

def max? (s : ArraySet) : Option UInt16 := s.values.back?

/-- Counts the values that do not directly follow the one before. -/
def countRunsAfter : UInt16 → List UInt16 → Nat → Nat
  | _, [], n => n
  | previous, v :: rest, n =>
    countRunsAfter v rest (if v.toNat = previous.toNat + 1 then n else n + 1)

def countRuns (s : ArraySet) : Nat :=
  match s.values.toList with
  | [] => 0
  | v :: rest => countRunsAfter v rest 1

/-- Walks two ascending lists together. A value of one list only is kept when `single` holds, a
value of both when `both` holds. -/
def mergeOnto (single both : Bool) :
    List UInt16 → List UInt16 → Array UInt16 → Array UInt16
  | [], bs, out => if single then out ++ bs else out
  | as, [], out => if single then out ++ as else out
  | a :: as, b :: bs, out =>
    if a = b then mergeOnto single both as bs (if both then out.push a else out)
    else if a < b then
      mergeOnto single both as (b :: bs) (if single then out.push a else out)
    else mergeOnto single both (a :: as) bs (if single then out.push b else out)
termination_by as bs => as.length + bs.length

/-- The values of either set; there can be more than `maxLength`. -/
def union (s t : ArraySet) : ArraySet :=
  ⟨mergeOnto true true s.values.toList t.values.toList #[]⟩

/-- The values of exactly one of the sets; there can be more than `maxLength`. -/
def symmDiff (s t : ArraySet) : ArraySet :=
  ⟨mergeOnto true false s.values.toList t.values.toList #[]⟩

/-- The values of both sets, put out as a new list. That they fit into the list of the first set, over
values already passed, is left out. -/
def inter (s t : ArraySet) : ArraySet :=
  ⟨mergeOnto false true s.values.toList t.values.toList #[]⟩

def interCountOnto : List UInt16 → List UInt16 → Nat → Nat
  | a :: as, b :: bs, total =>
    if a = b then interCountOnto as bs (total + 1)
    else if a < b then interCountOnto as (b :: bs) total
    else interCountOnto (a :: as) bs total
  | _, _, total => total
termination_by as bs => as.length + bs.length

def interCount (s t : ArraySet) : Nat := interCountOnto s.values.toList t.values.toList 0

def diffOnto : List UInt16 → List UInt16 → Array UInt16 → Array UInt16
  | [], _, out => out
  | a :: as, bs, out =>
    let bs := bs.dropWhile (· < a)
    diffOnto as bs (if bs.head? = some a then out else out.push a)

def diff (s t : ArraySet) : ArraySet :=
  ⟨diffOnto s.values.toList t.values.toList #[]⟩

def filter (s : ArraySet) (keep : UInt16 → Bool) : ArraySet := ⟨s.values.filter keep⟩

/-- Adds to `out` the values that are covered by the runs, or those that are not. -/
def againstRunsOnto (covered : Bool) : List UInt16 → List Run → Array UInt16 → Array UInt16
  | [], _, out => out
  | v :: vs, runs, out =>
    let runs := runs.dropWhile (fun r => r.stop ≤ v.toNat)
    let inside := runs.head?.any (fun r => r.start ≤ v)
    againstRunsOnto covered vs runs (if inside = covered then out.push v else out)

def interRuns (s : ArraySet) (runs : Array Run) : ArraySet :=
  ⟨againstRunsOnto true s.values.toList runs.toList #[]⟩

def diffRuns (s : ArraySet) (runs : Array Run) : ArraySet :=
  ⟨againstRunsOnto false s.values.toList runs.toList #[]⟩

def serializedSizeFor (cardinality : Nat) : Nat := 2 * cardinality

def serializedSize (s : ArraySet) : Nat := serializedSizeFor s.length

def checkInvariants (s : ArraySet) : Checked Unit :=
  if s.values.size ≤ maxLength then do
    if ← Ascending.check s.values then return () else throw .malformedArray
  else throw .malformedArray

end ArraySet

end Roaring
