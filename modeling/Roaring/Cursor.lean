import Roaring.Run.Basic
import Roaring.Words.Basic

/-! Cursors over sequences that are taken from both ends. A step yields the value at that end, or
nothing when the sequence is used up, and the cursor that is left. -/
namespace Roaring

class DoubleEnded (σ : Type) (α : outParam Type) where
  next : σ → Option α × σ
  nextBack : σ → Option α × σ

/-- What is left of an array: the elements at the indices `lo, …, hi - 1`. -/
structure Slice (α : Type) where
  items : Array α
  lo : Nat
  hi : Nat
  inside : hi ≤ items.size

namespace Slice

variable {α : Type}

def ofArray (items : Array α) : Slice α := ⟨items, 0, items.size, Nat.le_refl _⟩

def length (s : Slice α) : Nat := s.hi - s.lo

def next (s : Slice α) : Option α × Slice α :=
  if left : s.lo < s.hi then
    have : s.lo < s.items.size := Nat.lt_of_lt_of_le left s.inside
    (some s.items[s.lo], { s with lo := s.lo + 1 })
  else (none, s)

def nextBack (s : Slice α) : Option α × Slice α :=
  if left : s.lo < s.hi then
    have : s.hi - 1 < s.items.size := by have := s.inside; omega
    (some s.items[s.hi - 1],
      { s with hi := s.hi - 1, inside := Nat.le_trans (Nat.sub_le _ _) s.inside })
  else (none, s)

instance : DoubleEnded (Slice α) α := ⟨next, nextBack⟩

theorem length_next (s rest : Slice α) (a : α) (step : s.next = (some a, rest)) :
    rest.length < s.length := by
  unfold next at step
  split at step
  · simp only [Prod.mk.injEq] at step
    obtain ⟨_, rfl⟩ := step
    simp only [length]
    omega
  · simp at step

theorem length_nextBack (s rest : Slice α) (a : α) (step : s.nextBack = (some a, rest)) :
    rest.length < s.length := by
  unfold nextBack at step
  split at step
  · simp only [Prod.mk.injEq] at step
    obtain ⟨_, rfl⟩ := step
    simp only [length]
    omega
  · simp at step

end Slice

/-- What is left of a run: the values from `lo` up to, but not including, `hi`. -/
structure RunCursor where
  lo : Nat
  hi : Nat

namespace RunCursor

def ofRun (r : Run) : RunCursor := ⟨r.start.toNat, r.last.toNat + 1⟩

def length (c : RunCursor) : Nat := c.hi - c.lo

def next (c : RunCursor) : Option UInt16 × RunCursor :=
  if c.lo < c.hi then (some c.lo.toUInt16, { c with lo := c.lo + 1 }) else (none, c)

def nextBack (c : RunCursor) : Option UInt16 × RunCursor :=
  if c.lo < c.hi then (some (c.hi - 1).toUInt16, { c with hi := c.hi - 1 }) else (none, c)

instance : DoubleEnded RunCursor UInt16 := ⟨next, nextBack⟩

end RunCursor

/-- What is left of the set positions of some words. Either side stands at a word and keeps a copy of
it in which the bits it has taken are cleared. The copies do not know of each other, also when both
sides stand at one word; `remaining` stops the sides before they cross. -/
structure BitCursor where
  words : Words
  frontIndex : Nat
  front : Word
  backIndex : Nat
  back : Word
  remaining : Nat

namespace BitCursor

def ofWords (words : Words) (cardinality : Nat) : BitCursor :=
  ⟨words, 0, words.word 0, 1023, words.word 1023, cardinality⟩

/-- The copy of the word at an index, or the first word after it, that has a bit set. -/
def ahead (words : Words) (i : Nat) (w : Word) : Option (Nat × Word) :=
  if w != 0 then some (i, w)
  else if inside : i + 1 < 1024 then ahead words (i + 1) words[i + 1]
  else none
termination_by 1024 - i

def next (c : BitCursor) : Option UInt16 × BitCursor :=
  if c.remaining = 0 then (none, c)
  else
    match ahead c.words c.frontIndex c.front with
    | none => (none, { c with frontIndex := 1024, front := 0, remaining := 0 })
    | some (i, w) =>
      (some (64 * i + Word.trailingZeros w).toUInt16,
        { c with frontIndex := i, front := w &&& (w - 1), remaining := c.remaining - 1 })

/-- The copy of the word at an index, or the last word before it, that has a bit set. -/
def behind (words : Words) : Nat → Word → Option (Nat × Word)
  | 0, w => if w != 0 then some (0, w) else none
  | i + 1, w => if w != 0 then some (i + 1, w) else behind words i (words.word i)

def nextBack (c : BitCursor) : Option UInt16 × BitCursor :=
  if c.remaining = 0 then (none, c)
  else
    match behind c.words c.backIndex c.back with
    | none => (none, { c with backIndex := 0, back := 0, remaining := 0 })
    | some (i, w) =>
      let bit := 63 - Word.leadingZeros w
      (some (64 * i + bit).toUInt16,
        { c with backIndex := i, back := w &&& ~~~(Word.single bit), remaining := c.remaining - 1 })

instance : DoubleEnded BitCursor UInt16 := ⟨next, nextBack⟩

end BitCursor

/-- A cursor over the values of a sequence of parts, one part after the other. The parts at the two
ends may be under way; the rest have not been looked into. -/
structure Flattened (ι σ : Type) where
  parts : Slice ι
  front : Option σ
  back : Option σ

namespace Flattened

variable {ι σ α : Type}

def ofArray (parts : Array ι) : Flattened ι σ := ⟨Slice.ofArray parts, none, none⟩

/-- A step of a part that is under way; a part that yields nothing is given up. -/
def stepPart (step : σ → Option α × σ) : Option σ → Option α × Option σ
  | none => (none, none)
  | some c =>
    match step c with
    | (some a, rest) => (some a, some rest)
    | (none, _) => (none, none)

/-- Takes from the part at the front, else from the next part that has not been looked into, else
from the part at the back. -/
def next [DoubleEnded σ α] (look : ι → σ) (c : Flattened ι σ) : Option α × Flattened ι σ :=
  match stepPart DoubleEnded.next c.front with
  | (some a, front) => (some a, { c with front })
  | (none, _) =>
    match taken : c.parts.next with
    | (some part, parts) =>
      have := c.parts.length_next parts part taken
      next look { c with parts, front := some (look part) }
    | (none, _) =>
      let (a, back) := stepPart DoubleEnded.next c.back
      (a, { c with front := none, back })
termination_by c.parts.length

/-- Takes from the part at the back, else from the last part that has not been looked into, else
from the part at the front. -/
def nextBack [DoubleEnded σ α] (look : ι → σ) (c : Flattened ι σ) : Option α × Flattened ι σ :=
  match stepPart DoubleEnded.nextBack c.back with
  | (some a, back) => (some a, { c with back })
  | (none, _) =>
    match taken : c.parts.nextBack with
    | (some part, parts) =>
      have := c.parts.length_nextBack parts part taken
      nextBack look { c with parts, back := some (look part) }
    | (none, _) =>
      let (a, front) := stepPart DoubleEnded.nextBack c.front
      (a, { c with front, back := none })
termination_by c.parts.length

end Flattened

end Roaring
