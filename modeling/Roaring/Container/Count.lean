import Roaring.Container.Algebra

/-! Cardinalities of the set algebra, without building its results, and the relations that follow
from them. -/
namespace Roaring.Container

def interCount : Container → Container → Checked Nat
  | .array s, .array t => .ok (s.interCount t)
  | .array s, .bits b | .bits b, .array s => .ok (s.values.countP b.contains)
  | .array s, .runs r | .runs r, .array s => .ok (s.values.countP r.contains)
  | .bits a, .bits b => .ok (a.interCount b)
  | .bits b, .runs r | .runs r, .bits b =>
    r.runs.foldlM (fun n run => return n + (← b.rangeCardinality run.span)) 0
  | .runs r, .runs q => .ok (r.interCount q)

def unionCount (c d : Container) : Checked Nat := do
  return c.cardinality + d.cardinality - (← c.interCount d)

def symmDiffCount (c d : Container) : Checked Nat := do
  return c.cardinality + d.cardinality - 2 * (← c.interCount d)

def diffCount (c d : Container) : Checked Nat := do
  return c.cardinality - (← c.interCount d)

def intersects (c d : Container) : Checked Bool :=
  if c.apart d then .ok false
  else
    match c, d with
    | .array s, _ => .ok (s.values.any d.contains)
    | _, .array t => .ok (t.values.any c.contains)
    | .bits a, .bits b => .ok (a.meets b)
    | _, _ => return (← c.interCount d) != 0

def isSubset (c d : Container) : Checked Bool :=
  if c.cardinality ≤ d.cardinality then return (← c.interCount d) == c.cardinality
  else .ok false

end Roaring.Container
