import Roaring.Columns.Basic

/-! Passes over the columns that re-encode containers, and set algebra. The algebra either builds new
columns beside two that stay, or empties the first ones and puts what becomes of their entries back
in. -/
namespace Roaring.Columns

/-! Re-encoding. -/

def serializedSize (s : Columns) : Nat :=
  Codec.headerSize s.keys.size s.hasRuns + s.containers.foldl (fun n c => n + c.payloadSize) 0

def serializedSizeAs (s : Columns) (kinds : Array Kind) : Nat :=
  Codec.headerSize s.keys.size (kinds.contains .runs) +
    (s.containers.zip kinds).foldl (fun n (c, kind) => n + c.payloadSizeAs kind) 0

def plannedKinds (s : Columns) : Array Kind :=
  let kinds := s.containers.map Container.inferOptimalKind
  if s.serializedSize < s.serializedSizeAs kinds then
    (s.containers.zip kinds).map fun (c, kind) =>
      if kind = .runs ∨ c.kind = .runs then c.kind else kind
  else kinds

/-- Converts the containers from an index on, and adds to `converted` how many have changed. -/
def convertFrom : List Kind → (i converted : Nat) → Change Nat
  | [], _, converted => return converted
  | kind :: kinds, i, converted => do
    if (← containerAt i).kind = kind then convertFrom kinds (i + 1) converted
    else
      changeAt i (fun c => return (← c.convertTo kind, ()))
      convertFrom kinds (i + 1) (converted + 1)

/-- Tells whether there are runs afterwards, and how many containers have changed. -/
def runOptimize : Change (Bool × Nat) := do
  let converted ← convertFrom (← get).plannedKinds.toList 0 0
  return ((← get).hasRuns, converted)

def removeRunsFrom : (n i : Nat) → (changed : Bool) → Change Bool
  | 0, _, changed => return changed
  | n + 1, i, changed => do
    let here ← changeAt i Container.removeRunCompression
    removeRunsFrom n (i + 1) (changed || here)

def removeRunCompression : Change Bool := do removeRunsFrom (← get).containers.size 0 false

/-! Set algebra. -/

def extendFrom (s : Columns) (i : Nat) : Change Unit := do
  let keys ← stretch s.keys i s.keys.size
  let containers ← stretch s.containers i s.containers.size
  (keys.zip containers).toList.forM fun (key, c) => pushNonempty key c

def interFrom (s t : Columns) (i j : Nat) : Change Unit :=
  if more : i < s.keys.size ∧ j < t.keys.size then
    if s.keys[i] < t.keys[j] then interFrom s t (i + 1) j
    else if t.keys[j] < s.keys[i] then interFrom s t i (j + 1)
    else do
      pushNonempty s.keys[i] (← (← fetch s.containers i).inter (← fetch t.containers j))
      interFrom s t (i + 1) (j + 1)
  else return ()
termination_by s.keys.size - i + (t.keys.size - j)

/-- Adds the entries of both sides, from an index of either on, combined under common keys. -/
def mergeFrom (combine : Container → Container → Checked Container) (s t : Columns) (i j : Nat) :
    Change Unit :=
  if more : i < s.keys.size ∧ j < t.keys.size then
    if s.keys[i] < t.keys[j] then do
      pushNonempty s.keys[i] (← fetch s.containers i)
      mergeFrom combine s t (i + 1) j
    else if t.keys[j] < s.keys[i] then do
      pushNonempty t.keys[j] (← fetch t.containers j)
      mergeFrom combine s t i (j + 1)
    else do
      pushNonempty s.keys[i] (← combine (← fetch s.containers i) (← fetch t.containers j))
      mergeFrom combine s t (i + 1) (j + 1)
  else do
    extendFrom s i
    extendFrom t j
termination_by s.keys.size - i + (t.keys.size - j)

/-- The first index, from `j` on, whose key is not below the given one. -/
def skipBelow (keys : Array UInt16) (key : UInt16) (j : Nat) : Nat :=
  if more : j < keys.size then if keys[j] < key then skipBelow keys key (j + 1) else j
  else j
termination_by keys.size - j

/-- Adds some entries, each combined with its partner on the other side, from an index of that side on.
An entry without a partner is kept as it is or left out. -/
def partnerFrom (combine : Container → Container → Checked Container) (keepsLone : Bool)
    (t : Columns) : List (UInt16 × Container) → (j : Nat) → Change Unit
  | [], _ => return ()
  | (key, c) :: rest, j => do
    let j := skipBelow t.keys key j
    if t.keys[j]? = some key then pushNonempty key (← combine c (← fetch t.containers j))
    else if keepsLone then pushNonempty key c
    partnerFrom combine keepsLone t rest j

/-- The columns that a call builds beside others. -/
def built (call : Change Unit) : Checked Columns :=
  match call.run empty with
  | .ok _ s => .ok s
  | .error fault _ => .error fault

def inter (s t : Columns) : Checked Columns := built (interFrom s t 0 0)

def union (s t : Columns) : Checked Columns := built (mergeFrom Container.union s t 0 0)

def symmDiff (s t : Columns) : Checked Columns := built (mergeFrom Container.symmDiff s t 0 0)

def diff (s t : Columns) : Checked Columns := built (partnerFrom Container.diff true t s.pairs 0)

/-! Set algebra in place. -/

/-- Empties the columns. -/
def take : Change (List (UInt16 × Container)) := modifyGet fun s => (s.pairs, empty)

/-- Adds the entries of the other side, from an index on, whose keys are below the given one. -/
def pushBelow (t : Columns) (key : UInt16) (j : Nat) : Change Nat :=
  if more : j < t.keys.size then
    if t.keys[j] < key then do
      pushNonempty t.keys[j] (← fetch t.containers j)
      pushBelow t key (j + 1)
    else return j
  else return j
termination_by t.keys.size - j

/-- Adds each entry, changed by its partner, behind the entries of the other side with smaller keys; at
last what is left of the other side. -/
def mergeInPlaceFrom (combine : Container → Container → Checked Container) (t : Columns) :
    List (UInt16 × Container) → (j : Nat) → Change Unit
  | [], j => extendFrom t j
  | (key, c) :: rest, j => do
    let j ← pushBelow t key j
    if t.keys[j]? = some key then
      pushNonempty key (← combine c (← fetch t.containers j))
      mergeInPlaceFrom combine t rest (j + 1)
    else
      pushNonempty key c
      mergeInPlaceFrom combine t rest j

def interInPlace (t : Columns) : Change Unit := do
  partnerFrom Container.interInPlace false t (← take) 0

def unionInPlace (t : Columns) : Change Unit := do
  mergeInPlaceFrom Container.unionInPlace t (← take) 0

def symmDiffInPlace (t : Columns) : Change Unit := do
  mergeInPlaceFrom Container.symmDiffInPlace t (← take) 0

def diffInPlace (t : Columns) : Change Unit := do
  partnerFrom Container.diffInPlace true t (← take) 0

end Roaring.Columns
