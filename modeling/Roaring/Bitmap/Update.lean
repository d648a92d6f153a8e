import Roaring.Bitmap.Basic
import Roaring.Container.Update

/-! Changing a bitmap value by value and range by range. A key that loses its last value loses its
entry. -/
namespace Roaring.Bitmap

def entryOf (key low : UInt16) : Entry := ⟨key, (Container.empty.insert low).1⟩

/-- Changes the container at an index and passes on the answer of the change. The container is
taken out of the entries first, so that the change finds it unshared. -/
@[inline] def changeAt (b : Bitmap) (i : Nat) (change : Container → Container × Bool) :
    Bitmap × Bool :=
  match b.entries[i]? with
  | none => (b, false)
  | some e =>
    let emptied := b.entries.setIfInBounds i ⟨e.key, .empty⟩
    let (c, answer) := change e.container
    (⟨emptied.setIfInBounds i ⟨e.key, c⟩⟩, answer)

def insert (b : Bitmap) (v : UInt32) : Bitmap × Bool :=
  let (key, low) := split v
  if b.entries.back?.all (fun e => e.key < key) then (⟨b.entries.push (entryOf key low)⟩, true)
  else
    match b.locate key with
    | .hit i => b.changeAt i (fun c => c.insert low)
    | .gap i => (⟨b.entries.insertIdxIfInBounds i (entryOf key low)⟩, true)

def dropEmptyAt (b : Bitmap) (i : Nat) : Bitmap :=
  if b.entries[i]?.any (fun e => e.container.isEmpty) then ⟨b.entries.eraseIdxIfInBounds i⟩ else b

def erase (b : Bitmap) (v : UInt32) : Bitmap × Bool :=
  let (key, low) := split v
  match b.locate key with
  | .hit i =>
    let (b, removed) := b.changeAt i (fun c => c.erase low)
    (b.dropEmptyAt i, removed)
  | .gap _ => (b, false)

/-- Appends a value that is not below the last one; the last one itself changes nothing. -/
def push (b : Bitmap) (v : UInt32) : Checked Bitmap :=
  let (key, low) := split v
  match b.entries.back? with
  | none => .ok ⟨b.entries.push (entryOf key low)⟩
  | some last =>
    if last.key = key then
      if last.container.max? = some low then .ok b
      else do
        let before := b.entries.pop
        return ⟨before.push ⟨key, ← last.container.push low⟩⟩
    else if last.key < key then .ok ⟨b.entries.push (entryOf key low)⟩
    else .error (.pushBelowMaximum v)

def extend (b : Bitmap) (values : Array UInt32) : Bitmap :=
  values.foldl (fun b v => (b.insert v).1) b

def ofValues (values : Array UInt32) : Bitmap := empty.extend values

/-- The bitmap of values in ascending order, by appending; fails at the first step down. -/
def ofSortedValues (values : Array UInt32) : Checked Bitmap := values.foldlM push empty

/-- The indices between which the keys stand that a non-empty range reaches. -/
def keyBounds (b : Bitmap) (range : Span) : Nat × Nat :=
  let lo := Search.partitionPoint b.entries (fun e => e.key.toNat < range.start / 65536)
  (lo, Search.partitionPointFrom b.entries lo (fun e => e.key.toNat ≤ (range.stop - 1) / 65536))

/-- Adds the parts of a range to the entries under their keys, in ascending order. A key without an
entry gets one. Counts the values that were absent. -/
def fillOnto : List (UInt16 × Span) → List Entry → Array Entry → Nat →
    Checked (Array Entry × Nat)
  | [], _, out, added => .ok (out, added)
  | (key, low) :: parts, [], out, added => do
    let c ← Container.ofRange low
    fillOnto parts [] (out.push ⟨key, c⟩) (added + c.cardinality)
  | (key, low) :: parts, e :: existing, out, added =>
    if e.key = key then do
      let c ← e.container.insertRange low
      fillOnto parts existing (out.push ⟨key, c⟩)
        (added + (c.cardinality - e.container.cardinality))
    else do
      let c ← Container.ofRange low
      fillOnto parts (e :: existing) (out.push ⟨key, c⟩) (added + c.cardinality)

/-- Adds every value of a range inside the domain and tells how many were absent. -/
def insertRange (b : Bitmap) (range : Span) : Checked (Bitmap × Nat) :=
  if range.isEmpty then .ok (b, 0)
  else if domain < range.stop then .error (.outsideDomain range)
  else do
    let (lo, hi) := b.keyBounds range
    let (filled, added) ← fillOnto (keyRanges range) (b.entries.extract lo hi).toList #[] 0
    return (⟨splice b.entries lo hi filled⟩, added)

def ofRange (range : Span) : Checked Bitmap := return (← empty.insertRange range).1

/-- A removal under way: the entries, the index up to which they are settled, and how many values are
gone. -/
structure Removal where
  entries : Array Entry
  write : Nat
  removed : Nat

/-- Removes the values of a range from the `n` entries from index `read` on, each in its place. An
entry that still has values is swapped forward to the index `write`, past those that have become
empty. -/
def compactFrom (range : Span) : (n read : Nat) → Removal → Checked Removal
  | 0, _, r => .ok r
  | n + 1, read, r =>
    match r.entries[read]? with
    | none => .ok r
    | some e => do
      let c ← e.container.eraseRange (lowRange range e.key.toNat)
      let entries := r.entries.setIfInBounds read ⟨e.key, c⟩
      let removed := r.removed + (e.container.cardinality - c.cardinality)
      compactFrom range n (read + 1)
        (if c.isEmpty then ⟨entries, r.write, removed⟩
        else ⟨entries.swapIfInBounds r.write read, r.write + 1, removed⟩)

def clamped (range : Span) : Span := ⟨range.start, min range.stop domain⟩

/-- Removes every value of a range and tells how many were present. The range is cut to the domain.
The entries that have become empty end up behind the others that the range reaches, and are dropped
there. -/
def eraseRange (b : Bitmap) (range : Span) : Checked (Bitmap × Nat) :=
  let range := clamped range
  if range.isEmpty then .ok (b, 0)
  else do
    let (lo, hi) := b.keyBounds range
    let r ← compactFrom range (hi - lo) lo ⟨b.entries, lo, 0⟩
    return (⟨splice r.entries r.write hi #[]⟩, r.removed)

def entryWithoutRuns (e : Entry) : Checked (Entry × Bool) := do
  let (c, changed) ← e.container.removeRunCompression
  return (⟨e.key, c⟩, changed)

/-- Turns every set of runs into a list or bits and tells whether there was one. -/
def removeRunCompression (b : Bitmap) : Checked (Bitmap × Bool) := do
  let results ← b.entries.mapM entryWithoutRuns
  return (⟨results.map Prod.fst⟩, results.any Prod.snd)

end Roaring.Bitmap
