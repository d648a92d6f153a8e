import Roaring.Bitmap.Basic

/-! Set algebra on bitmaps. The entries of both are walked in the order of their keys; containers
under the same key are combined, and a key on one side only is kept or dropped as the operation
asks. Empty containers never enter a result. -/
namespace Roaring.Bitmap

def pushNonempty (out : Array Entry) (key : UInt16) (c : Container) : Array Entry :=
  if c.isEmpty then out else out.push ⟨key, c⟩

def appendNonempty (out : Array Entry) (entries : List Entry) : Array Entry :=
  entries.foldl (fun out e => pushNonempty out e.key e.container) out

def interOnto : List Entry → List Entry → Array Entry → Checked (Array Entry)
  | d :: ds, e :: es, out =>
    if d.key < e.key then interOnto ds (e :: es) out
    else if e.key < d.key then interOnto (d :: ds) es out
    else do
      let c ← d.container.inter e.container
      interOnto ds es (pushNonempty out d.key c)
  | _, _, out => .ok out
termination_by ds es => ds.length + es.length

def inter (a b : Bitmap) : Checked Bitmap :=
  return ⟨← interOnto a.entries.toList b.entries.toList #[]⟩

/-- Adds to `out` the entries of both lists, combined under common keys. -/
def mergeOnto (combine : Container → Container → Checked Container) :
    List Entry → List Entry → Array Entry → Checked (Array Entry)
  | [], es, out => .ok (appendNonempty out es)
  | ds, [], out => .ok (appendNonempty out ds)
  | d :: ds, e :: es, out =>
    if d.key < e.key then mergeOnto combine ds (e :: es) (pushNonempty out d.key d.container)
    else if e.key < d.key then mergeOnto combine (d :: ds) es (pushNonempty out e.key e.container)
    else do
      let c ← combine d.container e.container
      mergeOnto combine ds es (pushNonempty out d.key c)
termination_by ds es => ds.length + es.length

def union (a b : Bitmap) : Checked Bitmap :=
  return ⟨← mergeOnto Container.union a.entries.toList b.entries.toList #[]⟩

def symmDiff (a b : Bitmap) : Checked Bitmap :=
  return ⟨← mergeOnto Container.symmDiff a.entries.toList b.entries.toList #[]⟩

def diffOnto : List Entry → List Entry → Array Entry → Checked (Array Entry)
  | [], _, out => .ok out
  | d :: ds, es, out =>
    let es := es.dropWhile (fun e => e.key < d.key)
    match es.head?.filter (fun e => e.key == d.key) with
    | some e => do
      let c ← d.container.diff e.container
      diffOnto ds es (pushNonempty out d.key c)
    | none => diffOnto ds es (pushNonempty out d.key d.container)

def diff (a b : Bitmap) : Checked Bitmap :=
  return ⟨← diffOnto a.entries.toList b.entries.toList #[]⟩

/-! The algebra that changes the first bitmap: its entries are walked once, each is changed by the entry
of the other bitmap under the same key, and the other bitmap is advanced beside it. -/

def interInPlaceOnto : List Entry → List Entry → Array Entry → Checked (Array Entry)
  | [], _, out => .ok out
  | d :: ds, es, out =>
    let es := es.dropWhile (fun e => e.key < d.key)
    match es.head?.filter (fun e => e.key == d.key) with
    | some e => do
      let c ← d.container.interInPlace e.container
      interInPlaceOnto ds es (pushNonempty out d.key c)
    | none => interInPlaceOnto ds es out

def interInPlace (a b : Bitmap) : Checked Bitmap :=
  return ⟨← interInPlaceOnto a.entries.toList b.entries.toList #[]⟩

/-- Adds to `out` each entry of the first list, changed by its partner, after the entries of the
second list with smaller keys; at last what is left of the second list. -/
def mergeInPlaceOnto (combine : Container → Container → Checked Container) :
    List Entry → List Entry → Array Entry → Checked (Array Entry)
  | [], es, out => .ok (appendNonempty out es)
  | d :: ds, es, out =>
    let out := appendNonempty out (es.takeWhile (fun e => e.key < d.key))
    match es.dropWhile (fun e => e.key < d.key) with
    | [] => mergeInPlaceOnto combine ds [] (pushNonempty out d.key d.container)
    | e :: es =>
      if e.key = d.key then do
        let c ← combine d.container e.container
        mergeInPlaceOnto combine ds es (pushNonempty out d.key c)
      else mergeInPlaceOnto combine ds (e :: es) (pushNonempty out d.key d.container)

def unionInPlace (a b : Bitmap) : Checked Bitmap :=
  return ⟨← mergeInPlaceOnto Container.unionInPlace a.entries.toList b.entries.toList #[]⟩

def symmDiffInPlace (a b : Bitmap) : Checked Bitmap :=
  return ⟨← mergeInPlaceOnto Container.symmDiffInPlace a.entries.toList b.entries.toList #[]⟩

def diffInPlaceOnto : List Entry → List Entry → Array Entry → Checked (Array Entry)
  | [], _, out => .ok out
  | d :: ds, es, out => do
    let es := es.dropWhile (fun e => e.key < d.key)
    let c ← match es.head?.filter (fun e => e.key == d.key) with
      | some e => d.container.diffInPlace e.container
      | none => pure d.container
    diffInPlaceOnto ds es (pushNonempty out d.key c)

def diffInPlace (a b : Bitmap) : Checked Bitmap :=
  return ⟨← diffInPlaceOnto a.entries.toList b.entries.toList #[]⟩

end Roaring.Bitmap
