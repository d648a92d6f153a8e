import Roaring.Codec.Reader
import Roaring.Validation.Verdict

/-! The validation itself: the checks are made in a fixed order, and the first one that fails gives
the verdict.

First the index: it is there, its size is not negative, it has container slots and keys, its size
is within both, its keys are strictly increasing, each slot in use holds a container. Then the
containers in the order of their keys. A list: its cardinality is not negative and not past
`ArraySet.maxLength`, its content is there and long enough and strictly increasing. Bits: the words
are there, 1024 of them, and the cardinality is the number of set bits. Runs: their count is not
negative, they are there and enough; then each run starts behind the last value of the one before,
stays inside the domain, and does not touch the one before. -/
namespace Roaring.Validation
open Verdict (invalid invalidContainer)

/-! What is looked at. A view can express states that no live container or bitmap has: missing parts,
negative counts, arrays of any length, unknown tags. -/

/-- The parts of a container, as found. -/
inductive ContainerView where
  | array (cardinality : Int) (content : Option (Array UInt16))
  | bits (cardinality : Int) (words : Option (Array Word))
  | runs (runCount : Int) (runs : Option (Array Run))
  | unknown (tag : UInt8)
deriving DecidableEq

structure IndexView where
  size : Int
  keys : Option (Array UInt16)
  containers : Option (Array (Option ContainerView))
deriving DecidableEq

/-- The parts of a live container; a kept cardinality that has passed below zero shows as such. -/
def ContainerView.ofContainer : Container → ContainerView
  | .array s => .array s.length (some s.values)
  | .bits b => .bits b.cached.toInt64.toInt (some b.words.toArray)
  | .runs r => .runs r.countRuns (some r.runs)

def IndexView.ofBitmap (b : Bitmap) : IndexView :=
  ⟨b.containerCount, some b.keys,
    some (b.entries.map (fun e => some (.ofContainer e.container)))⟩

/-! The checks. -/

/-- The first `count` elements; a count past the end breaks the contract of slices. -/
def leading {α : Type} (xs : Array α) (count : Nat) : Checked (List α) :=
  if count ≤ xs.size then .ok (xs.take count).toList else .error .sliceOutOfReach

/-- The first element, at index `i` or later, that is not greater than the one before it: its index,
the element before it and itself. -/
def firstNonIncrease : (i : Nat) → List UInt16 → Option (Nat × UInt16 × UInt16)
  | i, a :: b :: rest => if b ≤ a then some (i, a, b) else firstNonIncrease (i + 1) (b :: rest)
  | _, _ => none

def checkArray (cardinality : Int) (content : Option (Array UInt16)) : Checked Verdict :=
  if cardinality < 0 then invalidContainer .negativeCardinality [cardinality]
  else if (ArraySet.maxLength : Int) < cardinality then
    invalidContainer .tooBigCardinality [cardinality, ArraySet.maxLength]
  else
    match content with
    | none => invalidContainer .nullContent []
    | some content =>
      if (content.size : Int) < cardinality then
        invalidContainer .cardinalityExceedsCapacity [cardinality, content.size]
      else do
        match firstNonIncrease 1 (← leading content cardinality.toNat) with
        | some (i, before, value) =>
          invalidContainer .nonIncreasingValues [i, before.toNat, value.toNat]
        | none => return .ok

def checkBits (cardinality : Int) (words : Option (Array Word)) : Checked Verdict :=
  match words with
  | none => invalidContainer .nullBitmap []
  | some words =>
    if words.size ≠ 1024 then invalidContainer .invalidBitmapLength [words.size]
    else
      let actual : Nat := words.foldl (fun n w => n + Word.popCount w) 0
      if cardinality ≠ actual then invalidContainer .invalidCardinality [cardinality, actual]
      else .ok .ok

/-- Checks runs, of which the first has index `i`; `before` is the last value of the run before. -/
def checkRunsFrom : (i : Nat) → (before : Option Nat) → List Run → Checked Verdict
  | _, _, [] => .ok .ok
  | i, before, r :: rest =>
    let start := r.start.toNat
    let last := start + r.length.toNat
    if before.any (start ≤ ·) then
      invalidContainer .runOverlap [i, before.getD 0, start]
    else if 65535 < last then invalidContainer .runOverflow [i, start, r.length.toNat]
    else if before.any (start == · + 1) then
      invalidContainer .runsNotMerged [i, before.getD 0, start]
    else checkRunsFrom (i + 1) (some last) rest

def checkRuns (runCount : Int) (runs : Option (Array Run)) : Checked Verdict :=
  if runCount < 0 then invalidContainer .negativeRunCount [runCount]
  else
    match runs with
    | none => invalidContainer .nullValuesLength []
    | some runs =>
      if (runs.size : Int) < runCount then
        invalidContainer .capacityLessThanRunCount [runCount, runs.size]
      else do checkRunsFrom 0 none (← leading runs runCount.toNat)

def checkContainer : ContainerView → Checked Verdict
  | .array cardinality content => checkArray cardinality content
  | .bits cardinality words => checkBits cardinality words
  | .runs runCount runs => checkRuns runCount runs
  | .unknown tag => invalidContainer .unknownContainerType [tag.toNat]

/-- The first slot, at index `i` or later, that holds no container: its index and its key. -/
def firstEmptySlot : (i : Nat) → List (Option ContainerView × UInt16) → Option (Nat × UInt16)
  | _, [] => none
  | i, (none, key) :: _ => some (i, key)
  | i, (some _, _) :: rest => firstEmptySlot (i + 1) rest

/-- The verdict on the first container that is not valid, with its key. -/
def checkSlots : List (Option ContainerView × UInt16) → Checked Verdict
  | [] => .ok .ok
  | (none, _) :: rest => checkSlots rest
  | (some view, key) :: rest => do
    let v ← checkContainer view
    if v.isValid then checkSlots rest else v.prependKey key

/-- The verdict on `size` keys and slots, of those that are there. -/
def checkEntries (size : Nat) (keys : Array UInt16) (containers : Array (Option ContainerView)) :
    Checked Verdict := do
  let keys ← leading keys size
  match firstNonIncrease 1 keys with
  | some (i, before, key) => invalid .nonIncreasingKeys [i, before.toNat, key.toNat]
  | none =>
    let slots := (← leading containers size).zip keys
    match firstEmptySlot 0 slots with
    | some (i, key) => invalid .nullContainer [i, key.toNat]
    | none => checkSlots slots

def check : Option IndexView → Checked Verdict
  | none => invalid .nullContainers []
  | some index =>
    if index.size < 0 then invalid .negativeSize [index.size]
    else
      match index.containers, index.keys with
      | none, _ => invalid .nullContainerValues []
      | some _, none => invalid .nullKeys []
      | some containers, some keys =>
        let capacity := min keys.size containers.size
        if (capacity : Int) < index.size then
          invalid .moreContainersThanSpace [index.size, capacity]
        else checkEntries index.size.toNat keys containers

end Roaring.Validation

namespace Roaring

open Validation

def Container.validate (c : Container) : Checked Verdict := checkContainer (.ofContainer c)

def Bitmap.validate (b : Bitmap) : Checked Verdict := check (some (.ofBitmap b))

/-- Reads bytes of unknown origin and refuses what the validation finds fault with. -/
def Bitmap.deserializeValidated (bytes : List UInt8) : Checked (Except Error Bitmap) :=
  match deserializeSlice bytes with
  | .error e => .ok (.error e)
  | .ok b => do
    let v ← b.validate
    if v.isValid then return .ok b else return .error (.invalidFormat "bitmap" v.text)

end Roaring
