import Roaring.Container.Basic
import Roaring.Cursor

/-! Taking the values of a container from both ends. -/
namespace Roaring.Container

inductive Cursor where
  | array (rest : Slice UInt16)
  | bits (rest : BitCursor)
  | runs (rest : Flattened Run RunCursor)

def cursor : Container → Cursor
  | .array s => .array (Slice.ofArray s.values)
  | .bits b => .bits (.ofWords b.words b.cardinality)
  | .runs r => .runs (Flattened.ofArray r.runs)

namespace Cursor

def next : Cursor → Option UInt16 × Cursor
  | .array c =>
    let (v, c) := c.next
    (v, .array c)
  | .bits c =>
    let (v, c) := c.next
    (v, .bits c)
  | .runs c =>
    let (v, c) := c.next RunCursor.ofRun
    (v, .runs c)

def nextBack : Cursor → Option UInt16 × Cursor
  | .array c =>
    let (v, c) := c.nextBack
    (v, .array c)
  | .bits c =>
    let (v, c) := c.nextBack
    (v, .bits c)
  | .runs c =>
    let (v, c) := c.nextBack RunCursor.ofRun
    (v, .runs c)

instance : DoubleEnded Cursor UInt16 := ⟨next, nextBack⟩

def remaining? : Cursor → Option Nat
  | .array c => some c.length
  | .bits c => some c.remaining
  | .runs _ => none

end Cursor

end Roaring.Container
