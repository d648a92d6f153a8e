import Roaring.Container.Convert

/-! Set algebra on containers of any two encodings. Each pair of encodings has its own way: lists
are merged, bits are combined word by word, runs are merged as intervals or applied to bits as
ranges. A result is re-encoded by its cardinality, or by its size where runs take part, so that an
empty result is always the empty list. -/
namespace Roaring.Container

/-- Whether the bounds alone show that no value is shared. -/
def apart (c d : Container) : Bool :=
  match c.min?, c.max?, d.min?, d.max? with
  | some low, some high, some otherLow, some otherHigh => high < otherLow || otherHigh < low
  | _, _, _, _ => true

@[inline] def overRanges (change : BitSet → Span → Checked BitSet) (b : BitSet) (r : RunSet) :
    Checked BitSet :=
  r.runs.foldlM (fun b run => change b run.span) b

def addAll (b : BitSet) (s : ArraySet) : BitSet := s.values.foldl (fun b v => (b.insert v).1) b

def eraseAll (b : BitSet) (s : ArraySet) : BitSet := s.values.foldl (fun b v => (b.erase v).1) b

def flip (b : BitSet) (v : UInt16) : BitSet :=
  let (c, added) := b.insert v
  if added then c else (c.erase v).1

def flipAll (b : BitSet) (s : ArraySet) : BitSet := s.values.foldl flip b

def inter : Container → Container → Checked Container
  | .array s, .array t => .ok (.array (s.inter t))
  | .array s, .bits b | .bits b, .array s => .ok (.array (s.filter b.contains))
  | .array s, .runs r | .runs r, .array s => .ok (.array (s.interRuns r.runs))
  | .bits a, .bits b => .ok (ofBits (a.inter b))
  | .bits b, .runs r | .runs r, .bits b =>
    if r.isFull then .ok (ofBits b) else return ofBits (← b.retainRuns r.runs)
  | .runs r, .runs q =>
    if r.isFull then ofRuns q else if q.isFull then ofRuns r else ofRuns (r.inter q)

def union : Container → Container → Checked Container
  | .array s, .array t => .ok (ofSortedValues (s.union t).values)
  | .array s, .bits b | .bits b, .array s => .ok (ofBits (addAll b s))
  | .array s, .runs r | .runs r, .array s =>
    if r.isFull then .ok full else ofRuns (r.union (.ofSortedValues s.values))
  | .bits a, .bits b => .ok (ofBits (a.union b))
  | .bits b, .runs r | .runs r, .bits b =>
    if r.isFull then .ok full else return ofBits (← overRanges BitSet.insertRange b r)
  | .runs r, .runs q => if r.isFull || q.isFull then .ok full else ofRuns (r.union q)

def symmDiff : Container → Container → Checked Container
  | .array s, .array t => .ok (ofSortedValues (s.symmDiff t).values)
  | .array s, .bits b | .bits b, .array s => .ok (ofBits (flipAll b s))
  | .array s, .runs r | .runs r, .array s => ofRuns (r.symmDiff (.ofSortedValues s.values))
  | .bits a, .bits b => .ok (ofBits (a.symmDiff b))
  | .bits b, .runs r | .runs r, .bits b => return ofBits (← overRanges BitSet.flipRange b r)
  | .runs r, .runs q => ofRuns (r.symmDiff q)

def diff (c d : Container) : Checked Container :=
  if c.apart d then .ok (if c.isEmpty then empty else c)
  else
    match c, d with
    | .array s, .array t => .ok (.array (s.diff t))
    | .array s, .bits b => .ok (.array (s.filter (fun v => !b.contains v)))
    | .array s, .runs r => .ok (.array (s.diffRuns r.runs))
    | .bits b, .array s => .ok (ofBits (eraseAll b s))
    | .bits a, .bits b => .ok (ofBits (a.diff b))
    | .bits b, .runs r => return ofBits (← overRanges BitSet.eraseRange b r)
    | .runs r, .array s => ofRuns (r.diff (.ofSortedValues s.values))
    | .runs r, .bits b =>
      if r.cardinality ≤ ArraySet.maxLength then
        .ok (.array (r.toArraySet.filter (fun v => !b.contains v)))
      else return ofBits ((← r.toBitSet).diff b)
    | .runs r, .runs q => ofRuns (r.diff q)

/-! The algebra that changes the first container and keeps its storage where the pair of encodings allows
it; the other pairs are left to the algebra that builds a new container. Bits that become sparse turn
into a list. -/

def interInPlace (c d : Container) : Checked Container :=
  match c, d with
  | .array s, .array t => .ok (.array (s.inter t))
  | .array s, .bits b => .ok (.array (s.filter b.contains))
  | .bits a, .bits b => .ok (ofBits (a.interWith b))
  | .bits b, .runs r => do
    let kept ← if r.isFull then pure b else b.retainRuns r.runs
    return ofBits kept
  | _, _ => c.inter d

def unionInPlace (c d : Container) : Checked Container :=
  match c, d with
  | .bits a, .bits b => .ok (ofBits (a.unionWith b))
  | .bits b, .array s => .ok (ofBits (addAll b s))
  | .bits b, .runs r =>
    if r.isFull then c.union d else return ofBits (← overRanges BitSet.insertRange b r)
  | _, _ => c.union d

def symmDiffInPlace (c d : Container) : Checked Container :=
  match c, d with
  | .bits a, .bits b => .ok (ofBits (a.symmDiffWith b))
  | .bits b, .runs r => return ofBits (← overRanges BitSet.flipRange b r)
  | _, _ => c.symmDiff d

def diffInPlace (c d : Container) : Checked Container :=
  if c.apart d then .ok (if c.isEmpty then empty else c)
  else
    match c, d with
    | .array s, .array t => .ok (.array (s.diff t))
    | .array s, .bits b => .ok (.array (s.filter (fun v => !b.contains v)))
    | .bits a, .bits b => .ok (ofBits (a.diffWith b))
    | .bits b, .array s => .ok (ofBits (eraseAll b s))
    | _, _ => c.diff d

end Roaring.Container
