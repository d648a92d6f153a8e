import Roaring.Bitmap.Basic

/-! Cardinalities of the set algebra on bitmaps, without building its results, and the relations
between two bitmaps. -/
namespace Roaring.Bitmap

def foldCommon {β : Type} (visit : β → Container → Container → Checked β) :
    List Entry → List Entry → β → Checked β
  | d :: ds, e :: es, acc =>
    if d.key < e.key then foldCommon visit ds (e :: es) acc
    else if e.key < d.key then foldCommon visit (d :: ds) es acc
    else do
      let acc ← visit acc d.container e.container
      foldCommon visit ds es acc
  | _, _, acc => .ok acc
termination_by ds es => ds.length + es.length

def interCount (a b : Bitmap) : Checked Nat :=
  foldCommon (fun n c d => return n + (← c.interCount d)) a.entries.toList b.entries.toList 0

def unionCount (a b : Bitmap) : Checked Nat := do
  return a.cardinality + b.cardinality - (← a.interCount b)

def symmDiffCount (a b : Bitmap) : Checked Nat := do
  return a.cardinality + b.cardinality - 2 * (← a.interCount b)

def diffCount (a b : Bitmap) : Checked Nat := do
  return a.cardinality - (← a.interCount b)

def intersects (a b : Bitmap) : Checked Bool :=
  foldCommon (fun found c d => if found then .ok true else c.intersects d)
    a.entries.toList b.entries.toList false

def subsetFrom : List Entry → List Entry → Checked Bool
  | [], _ => .ok true
  | d :: ds, es =>
    let es := es.dropWhile (fun e => e.key < d.key)
    match es.head?.filter (fun e => e.key == d.key) with
    | none => .ok false
    | some e => do
      if ← d.container.isSubset e.container then subsetFrom ds es else return false

def isSubset (a b : Bitmap) : Checked Bool := subsetFrom a.entries.toList b.entries.toList

end Roaring.Bitmap
