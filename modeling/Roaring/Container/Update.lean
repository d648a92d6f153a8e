import Roaring.Container.Convert

/-! Changing a container value by value and range by range. A list turns into bits when it would
grow past `ArraySet.maxLength`, and bits turn into a list when they shrink to that length. -/
namespace Roaring.Container

def insert : Container → UInt16 → Container × Bool
  | .array s, v =>
    if s.length < ArraySet.maxLength then
      let (s, added) := s.insert v
      (.array s, added)
    else if s.contains v then (.array s, false)
    else (.bits ((BitSet.ofSortedValues s.values).insert v).1, true)
  | .bits b, v =>
    let (b, added) := b.insert v
    (.bits b, added)
  | .runs r, v =>
    let (r, added) := r.insert v
    (.runs r, added)

def erase : Container → UInt16 → Container × Bool
  | .array s, v =>
    let (s, removed) := s.erase v
    (.array s, removed)
  | .bits b, v =>
    let (b, removed) := b.erase v
    (if removed then ofBits b else .bits b, removed)
  | .runs r, v =>
    let (r, removed) := r.erase v
    (.runs r, removed)

/-- Appends a value to a container that is not extended in place: it must not be below the last. -/
def pushByInsert (c : Container) (v : UInt16) : Checked Container :=
  match c.max? with
  | none => .ok (c.insert v).1
  | some last => if v < last then .error (.pushBelowLast v last) else .ok (c.insert v).1

/-- Appends a value that is not below the last one; the last one itself changes nothing. -/
def push : Container → UInt16 → Checked Container
  | .array s, v =>
    if s.length < ArraySet.maxLength then return .array (← s.push v)
    else pushByInsert (.array s) v
  | .bits b, v => pushByInsert (.bits b) v
  | .runs r, v => return .runs (← r.push v)

/-- Adds every value of a range inside `0..65536`. The whole domain is a single run, or a fill of
all words where there are bits. -/
def insertRange (c : Container) (range : Span) : Checked Container :=
  if range.isEmpty then .ok c
  else if domain < range.stop then .error (.outsideContainer range)
  else
    match c with
    | .bits b => return .bits (← b.insertRange range)
    | .array s =>
      if range = ⟨0, domain⟩ then .ok full
      else if s.lengthAfterInsertRange range ≤ ArraySet.maxLength then
        .ok (.array (s.insertRange range))
      else return .bits (← (BitSet.ofSortedValues s.values).insertRange range)
    | .runs r =>
      if range = ⟨0, domain⟩ then .ok full else return .runs (← r.insertRange range)

def eraseRange (c : Container) (range : Span) : Checked Container :=
  if range.isEmpty then .ok c
  else if domain < range.stop then .error (.outsideContainer range)
  else
    match c with
    | .array s => .ok (.array (s.eraseRange range))
    | .bits b => return ofBits (← b.eraseRange range)
    | .runs r => .ok (.runs (r.eraseRange range))

end Roaring.Container
