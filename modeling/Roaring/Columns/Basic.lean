import Roaring.Bitmap.Algebra
import Roaring.Bitmap.Optimize
import Roaring.Bitmap.Update
import Roaring.Validation.Check

/-! Bitmaps as they are kept, in two columns: the keys, and at the same indices the containers under
them. A call changes the columns one after the other. In between they are out of step, and a call that
fails leaves them as they then are. That a call comes to the one on `Bitmap`, where a key and its
container are one entry, is a theorem. -/
namespace Roaring

structure Columns where
  keys : Array UInt16
  containers : Array Container
deriving DecidableEq

namespace Columns

/-- There is a container for each key, well-formed and with values, and the keys ascend. -/
structure WellFormed (s : Columns) : Prop where
  paired : s.keys.size = s.containers.size
  ascending : s.keys.toList.Pairwise (· < ·)
  containers : ∀ c ∈ s.containers, c.WellFormed ∧ c.isEmpty = false

instance (s : Columns) : Decidable s.WellFormed :=
  decidable_of_iff
    (s.keys.size = s.containers.size ∧ s.keys.toList.Pairwise (· < ·) ∧
      ∀ c ∈ s.containers, c.WellFormed ∧ c.isEmpty = false)
    ⟨fun ⟨paired, ascending, containers⟩ => ⟨paired, ascending, containers⟩,
      fun formed => ⟨formed.paired, formed.ascending, formed.containers⟩⟩

structure Canonical (s : Columns) : Prop extends s.WellFormed where
  dense : ∀ c ∈ s.containers, c.Canonical

instance (s : Columns) : Decidable s.Canonical :=
  decidable_of_iff (s.WellFormed ∧ ∀ c ∈ s.containers, c.Canonical)
    ⟨fun both => ⟨both.1, both.2⟩, fun canonical => ⟨canonical.toWellFormed, canonical.dense⟩⟩

def empty : Columns := ⟨#[], #[]⟩

def ofEntries (entries : Array Entry) : Columns :=
  ⟨entries.map Entry.key, entries.map Entry.container⟩

/-- The pairs at the same index, as far as both columns go. -/
def pairs (s : Columns) : List (UInt16 × Container) := (s.keys.zip s.containers).toList

def toBitmap (s : Columns) : Bitmap := ⟨s.keys.zipWith Entry.mk s.containers⟩

def locate (s : Columns) (key : UInt16) : Search.Place :=
  Search.locate s.keys (fun k => compare k key)

def hasRuns (s : Columns) : Bool := s.containers.any (fun c => c.kind == .runs)

def validate (s : Columns) : Checked Validation.Verdict :=
  Validation.check (some ⟨s.keys.size, some s.keys,
    some (s.containers.map (fun c => some (.ofContainer c)))⟩)

/-- A call: it answers or fails, and leaves columns either way. -/
abbrev Change := EStateM Fault Columns

instance : MonadLift Checked Change where
  monadLift result := fun s =>
    match result with
    | .ok a => .ok a s
    | .error fault => .error fault s

/-- Changes the keys at indices that have to be within their number. -/
@[inline] def editKeys (within : Nat → Bool) (edit : Array UInt16 → Array UInt16) : Change Unit :=
  fun s =>
    if within s.keys.size then .ok () { s with keys := edit s.keys }
    else .error .sliceOutOfReach s

@[inline] def editContainers (within : Nat → Bool) (edit : Array Container → Array Container) :
    Change Unit :=
  fun s =>
    if within s.containers.size then .ok () { s with containers := edit s.containers }
    else .error .sliceOutOfReach s

def keyAt (i : Nat) : Change UInt16 := do fetch (← get).keys i

def containerAt (i : Nat) : Change Container := do fetch (← get).containers i

/-- Changes the container at an index, unless that fails. -/
@[specialize] def changeAt {α : Type} (i : Nat) (change : Container → Checked (Container × α)) :
    Change α := do
  let (c, answer) ← change (← containerAt i)
  editContainers (i < ·) (·.setIfInBounds i c)
  return answer

def pushEntry (key : UInt16) (c : Container) : Change Unit := do
  modify fun s => { s with keys := s.keys.push key }
  modify fun s => { s with containers := s.containers.push c }

def pushNonempty (key : UInt16) (c : Container) : Change Unit := do
  if c.isEmpty then return () else pushEntry key c

def single (low : UInt16) : Container := (Container.empty.insert low).1

/-! Values. -/

def insert (v : UInt32) : Change Bool := do
  let (key, low) := split v
  if (← get).keys.back?.all (· < key) then
    pushEntry key (single low)
    return true
  else
    match (← get).locate key with
    | .hit i => changeAt i (fun c => .ok (c.insert low))
    | .gap i =>
      editKeys (i ≤ ·) (·.insertIdxIfInBounds i key)
      editContainers (i ≤ ·) (·.insertIdxIfInBounds i (single low))
      return true

def erase (v : UInt32) : Change Bool := do
  let (key, low) := split v
  match (← get).locate key with
  | .hit i =>
    let removed ← changeAt i (fun c => .ok (c.erase low))
    if (← containerAt i).isEmpty then
      editKeys (i < ·) (·.eraseIdxIfInBounds i)
      editContainers (i < ·) (·.eraseIdxIfInBounds i)
    return removed
  | .gap _ => return false

def push (v : UInt32) : Change Unit := do
  let (key, low) := split v
  match (← get).keys.back? with
  | none => pushEntry key (single low)
  | some last =>
    if last = key then
      match (← get).containers.back? with
      | none => return ()
      | some c =>
        if c.max? = some low then return ()
        else changeAt ((← get).containers.size - 1) (fun c => return (← c.push low, ()))
    else if last < key then pushEntry key (single low)
    else throw (.pushBelowMaximum v)

def extend (values : Array UInt32) : Change Unit :=
  values.toList.forM fun v => do let _ ← insert v

/-- Appends values, up to the first step down. -/
def pushAll (values : Array UInt32) : Change Unit := values.toList.forM push

def clear : Change Unit := do
  modify fun s => { s with keys := #[] }
  modify fun s => { s with containers := #[] }

/-! Ranges. -/

/-- The part of a range under a key that it reaches, in low halves. -/
def lowRange (range : Span) (key : Nat) : Checked Span := do
  let base := key * 65536
  return ⟨← minus (max range.start base) base, ← minus (min range.stop (base + 65536)) base⟩

def keyRanges (range : Span) : Checked (List (UInt16 × Span)) := do
  let first := range.start / 65536
  let last := (← minus range.stop 1) / 65536
  (List.range' first (last + 1 - first)).mapM fun key =>
    return (key.toUInt16, ← lowRange range key)

def keyBounds (s : Columns) (range : Span) : Nat × Nat :=
  let lo := Search.partitionPoint s.keys (fun k => k.toNat < range.start / 65536)
  (lo, Search.partitionPointFrom s.keys lo (fun k => k.toNat ≤ (range.stop - 1) / 65536))

/-- Takes the containers at the indices `lo, …, hi - 1` out of their column. -/
def drainContainers (lo hi : Nat) : Change (Array Container) := do
  let taken ← stretch (← get).containers lo hi
  editContainers (fun n => lo ≤ hi ∧ hi ≤ n) (splice · lo hi #[])
  return taken

/-- Columns under way, and how many values have come in. -/
structure Filling where
  keys : Array UInt16
  containers : Array Container
  added : Nat

/-- Puts out a container under each key in turn: the one that is there, with its part of a range, or a
new one. -/
def fill : List (UInt16 × Span) → List (UInt16 × Container) → Filling → Checked Filling
  | [], _, out => .ok out
  | (key, low) :: parts, existing, out =>
    match existing with
    | (k, c) :: rest =>
      if k = key then do
        let d ← c.insertRange low
        let more ← minus d.cardinality c.cardinality
        fill parts rest ⟨out.keys.push key, out.containers.push d, out.added + more⟩
      else do
        let d ← Container.ofRange low
        fill parts existing ⟨out.keys.push key, out.containers.push d, out.added + d.cardinality⟩
    | [] => do
      let d ← Container.ofRange low
      fill parts [] ⟨out.keys.push key, out.containers.push d, out.added + d.cardinality⟩

/-- Puts filled stretches in the place of the entries at the indices `lo, …, hi - 1`. The containers are
taken out first; their keys stay until all that takes their place is there. -/
def refill (parts : List (UInt16 × Span)) (lo hi : Nat) : Change Nat := do
  let keys ← stretch (← get).keys lo hi
  let containers ← drainContainers lo hi
  let out ← fill parts (keys.zip containers).toList ⟨#[], #[], 0⟩
  editKeys (fun n => lo ≤ hi ∧ hi ≤ n) (splice · lo hi out.keys)
  editContainers (lo ≤ ·) (splice · lo lo out.containers)
  return out.added

def insertRange (range : Span) : Change Nat := do
  if range.isEmpty then return 0
  else if Bitmap.domain < range.stop then throw (.outsideDomain range)
  else
    let (lo, hi) := (← get).keyBounds range
    refill (← keyRanges range) lo hi

/-- Removes the values of a range from the `n` containers from index `read` on, each in its place.
What still has values is swapped forward to the index `write`, first its key and then the container.
Gives the index behind the last one that stays, and how many values are gone. -/
def compactFrom (range : Span) : (n read write removed : Nat) → Change (Nat × Nat)
  | 0, _, write, removed => return (write, removed)
  | n + 1, read, write, removed => do
    let low ← lowRange range (← keyAt read).toNat
    let before := (← containerAt read).cardinality
    changeAt read (fun c => return (← c.eraseRange low, ()))
    let c ← containerAt read
    let gone ← minus before c.cardinality
    if c.isEmpty then compactFrom range n (read + 1) write (removed + gone)
    else
      editKeys (fun size => write < size ∧ read < size) (·.swapIfInBounds write read)
      editContainers (fun size => write < size ∧ read < size) (·.swapIfInBounds write read)
      compactFrom range n (read + 1) (write + 1) (removed + gone)

def eraseRange (range : Span) : Change Nat := do
  let range := Bitmap.clamped range
  if range.isEmpty then return 0
  else
    let (lo, hi) := (← get).keyBounds range
    let (write, removed) ← compactFrom range (hi - lo) lo lo 0
    editKeys (fun size => write ≤ hi ∧ hi ≤ size) (splice · write hi #[])
    editContainers (fun size => write ≤ hi ∧ hi ≤ size) (splice · write hi #[])
    return removed

end Columns

end Roaring
