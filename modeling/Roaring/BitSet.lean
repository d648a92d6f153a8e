import Roaring.ArraySet
import Roaring.Words.Basic

/-! Dense sets of 16-bit values: one bit for each value, and the number of set bits kept beside
them. Every update keeps that number in step with the bits. A set taken from parts of unknown
origin can carry any number there, and the number itself wraps around at 2^64. -/
namespace Roaring

structure BitSet where
  words : Words
  cached : UInt64
deriving DecidableEq

namespace BitSet

def serializedSize : Nat := 8192

def empty : BitSet := ⟨Words.zero, 0⟩

def full : BitSet := ⟨Words.full, 65536⟩

def ofWords (ws : Words) : BitSet := ⟨ws, ws.count.toUInt64⟩

/-- The kept cardinality, which need not be right. -/
def cardinality (b : BitSet) : Nat := b.cached.toNat

def WellFormed (b : BitSet) : Prop := b.cardinality = b.words.count

instance (b : BitSet) : Decidable b.WellFormed :=
  inferInstanceAs (Decidable (b.cardinality = b.words.count))

def ofSortedValues (values : Array UInt16) : BitSet :=
  ofWords (values.foldl (fun ws v => ws.setBit v.toNat) Words.zero)

def isEmpty (b : BitSet) : Bool := b.cached == 0

def isFull (b : BitSet) : Bool := b.cached == 65536

def contains (b : BitSet) (v : UInt16) : Bool := b.words.test v.toNat

/-- Replaces a word and moves the kept cardinality by the difference in set bits. -/
def setWord (b : BitSet) (i : Nat) (w : Word) : BitSet :=
  let before := (b.words.word i).popCount
  ⟨b.words.setWord i w, b.cached + w.popCount.toUInt64 - before.toUInt64⟩

/-- Adds a value and tells whether it was absent, which is whether its word is another one now. -/
def insert (b : BitSet) (v : UInt16) : BitSet × Bool :=
  let i := v.toNat / 64
  let old := b.words.word i
  let new := old ||| Word.single (v.toNat % 64)
  (b.setWord i new, old != new)

def erase (b : BitSet) (v : UInt16) : BitSet × Bool :=
  let i := v.toNat / 64
  let old := b.words.word i
  let new := old &&& ~~~Word.single (v.toNat % 64)
  (b.setWord i new, old != new)

/-- The words that a non-empty range touches, each with a mask of the bits that stand for positions of
the range. The first word and the last one may be touched in part. Where the range ends with a word,
there is no last one. -/
def maskedWords (range : Span) : List (Nat × Word) :=
  let first := range.start / 64
  let last := range.stop / 64
  if first = last then [(first, Word.between (range.start % 64) (range.stop % 64))]
  else
    (first, ~~~Word.ones (range.start % 64)) ::
      ((List.range' (first + 1) (last - (first + 1))).map (fun i => (i, ~~~(0 : Word))) ++
        if range.stop % 64 = 0 then [] else [(last, Word.ones (range.stop % 64))])

@[inline] def changeWord (change : Word → Word → Word) (b : BitSet) (part : Nat × Word) : BitSet :=
  b.setWord part.1 (change (b.words.word part.1) part.2)

@[inline] def updateRange (change : Word → Word → Word) (b : BitSet) (range : Span) :
    Checked BitSet :=
  if range.isEmpty then .ok b
  else if 65536 < range.stop then .error (.outsideBits range.stop)
  else .ok ((maskedWords range).foldl (changeWord change) b)

def insertRange (b : BitSet) (range : Span) : Checked BitSet :=
  b.updateRange (fun w mask => w ||| mask) range

def eraseRange (b : BitSet) (range : Span) : Checked BitSet :=
  b.updateRange (fun w mask => w &&& ~~~mask) range

def flipRange (b : BitSet) (range : Span) : Checked BitSet :=
  b.updateRange (fun w mask => w ^^^ mask) range

def rangeCardinality (b : BitSet) (range : Span) : Checked Nat :=
  if range.isEmpty then .ok 0
  else if 65536 < range.stop then .error .bitsOutOfReach
  else
    .ok ((maskedWords range).foldl
      (fun total part => total + (b.words.word part.1 &&& part.2).popCount) 0)

def containsRange (b : BitSet) (range : Span) : Checked Bool := do
  return (← b.rangeCardinality range) == range.length

def ofRuns (runs : Array Run) : Checked BitSet :=
  runs.foldlM (fun b r => b.insertRange r.span) empty

def rank (b : BitSet) (v : UInt16) : Nat := b.words.rank v.toNat

def select (b : BitSet) (n : Nat) : Option UInt16 := (b.words.select n).map Nat.toUInt16

def min? (b : BitSet) : Option UInt16 := (b.words.firstSetIn 1024 0).map Nat.toUInt16

def max? (b : BitSet) : Option UInt16 := (b.words.lastSetIn 1024).map Nat.toUInt16

def countOnes (b : BitSet) : Nat := b.words.count

def countRuns (b : BitSet) : Nat := b.words.countRuns

/-- The values in ascending order, as many as the kept cardinality allows. -/
def values (b : BitSet) : Array UInt16 := b.words.positions.take b.cardinality

def valuesDescending (b : BitSet) : Array UInt16 := b.words.positions.reverse.take b.cardinality

/-- The list of the values; it passes `ArraySet.maxLength` when the set is dense. -/
def toArraySet (b : BitSet) : ArraySet := ⟨b.values⟩

@[inline] def zipWords (op : Word → Word → Word) (a b : BitSet) : BitSet :=
  ofWords (Vector.zipWith op a.words b.words)

def union (a b : BitSet) : BitSet := zipWords (fun x y => x ||| y) a b

def inter (a b : BitSet) : BitSet := zipWords (fun x y => x &&& y) a b

def symmDiff (a b : BitSet) : BitSet := zipWords (fun x y => x ^^^ y) a b

def diff (a b : BitSet) : BitSet := zipWords (fun x y => x &&& ~~~y) a b

/-- Replaces the `n` words from index `i` on, one by one, by their combinations with the words of
another set, and adds the set bits of these to `total`. -/
@[specialize] def combineFrom (op : Word → Word → Word) (other : Words) :
    (n i : Nat) → Words → (total : Nat) → Words × Nat
  | 0, _, ws, total => (ws, total)
  | n + 1, i, ws, total =>
    let w := op (ws.word i) (other.word i)
    combineFrom op other n (i + 1) (ws.setWord i w) (total + w.popCount)

/-- Combines in place: the words of the first set are overwritten. -/
@[inline] def combineWith (op : Word → Word → Word) (a b : BitSet) : BitSet :=
  let combined := combineFrom op b.words 1024 0 a.words 0
  ⟨combined.1, combined.2.toUInt64⟩

def unionWith (a b : BitSet) : BitSet := combineWith (fun x y => x ||| y) a b

def interWith (a b : BitSet) : BitSet := combineWith (fun x y => x &&& y) a b

def symmDiffWith (a b : BitSet) : BitSet := combineWith (fun x y => x ^^^ y) a b

def diffWith (a b : BitSet) : BitSet := combineWith (fun x y => x &&& ~~~y) a b

def interCount (a b : BitSet) : Nat :=
  Words.count (Vector.zipWith (fun x y => x &&& y) a.words b.words)

def meets (a b : BitSet) : Bool :=
  (Vector.zipWith (fun x y => x &&& y) a.words b.words).any (fun w => w != 0)

/-- Removes the values between the runs: those from the end of one run to the start of the next. -/
def retainRuns (b : BitSet) (runs : Array Run) : Checked BitSet := do
  let (b, covered) ← runs.foldlM
    (fun (b, covered) r => return (← b.eraseRange ⟨covered, r.start.toNat⟩, r.stop)) (b, 0)
  b.eraseRange ⟨covered, 65536⟩

end BitSet

end Roaring
