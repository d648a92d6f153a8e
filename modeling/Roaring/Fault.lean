import Roaring.Run.Basic
import Roaring.Validation.Code

/-! Violated contracts. An operation that callers may misuse, or that can meet malformed parts,
answers in `Checked`; on well-formed operands no fault arises. -/
namespace Roaring
open Validation

inductive Fault where
  /-- A value appended to a container below its last value. -/
  | pushBelowLast (value last : UInt16)
  /-- A value appended to a bitmap under a smaller key than the last. -/
  | pushBelowMaximum (value : UInt32)
  /-- A range of low values that ends past 65536. -/
  | outsideContainer (range : Span)
  /-- A range of bits to change that ends past 65536. -/
  | outsideBits (stop : Nat)
  /-- A range of values that ends past 2^32. -/
  | outsideDomain (range : Span)
  /-- A verdict on the index given the wrong number of parameters. -/
  | codeParams (code : Code) (given : Nat)
  /-- A verdict on a container given the wrong number of parameters. -/
  | containerCodeParams (code : ContainerCode) (given : Nat)
  /-- A key given to a verdict that is not about a container. -/
  | keyOfOtherVerdict (code : Code)
  /-- A second key given to a verdict. -/
  | keyedTwice
  /-- Neighbouring runs that overlap, touch or are out of order. -/
  | unmergedRuns (left right : Run)
  /-- A run that passes 65535. -/
  | runOverflow
  /-- A sorted list of values that is too long or not strictly increasing. -/
  | malformedArray
  /-- A range of bits to read that ends past 65536. -/
  | bitsOutOfReach
  /-- Runs so disordered that the part to replace ends before it starts. -/
  | crossedRuns
  /-- A list of values that no memory could hold. -/
  | overCapacity
  /-- An index past an array, or a slice that ends past it. -/
  | sliceOutOfReach
  /-- A size that falls below zero. -/
  | belowZero

namespace Fault

/-- The text of a fault, for those that have one. -/
def message : Fault → Option String
  | pushBelowLast value last =>
    some s!"Attempted to push value {value} which is less than last value {last}"
  | pushBelowMaximum value => some s!"push of {value} below the current maximum"
  | outsideContainer range => some s!"Range {range} exceeds the container domain"
  | outsideBits stop => some s!"Range end {stop} out of bounds (len: 65536)"
  | outsideDomain range => some s!"Range {range} exceeds the u32 domain"
  | codeParams code given =>
    some s!"{code.name}: expected {code.paramCount} parameters, but given {given}"
  | containerCodeParams code given =>
    some s!"{code.name}: expected {code.paramCount} parameters, but given {given}"
  | keyOfOtherVerdict code =>
    some s!"validation must be about an invalid container, not: {code.name}"
  | keyedTwice => some "validation already enriched"
  | unmergedRuns left right => some s!"runs must be sorted and merged: {left}, {right}"
  | runOverflow | malformedArray | bitsOutOfReach | crossedRuns | overCapacity
  | sliceOutOfReach | belowZero => none

end Fault

/-- A result, or the contract that was violated on the way to it. -/
abbrev Checked := Except Fault

theorem ok_bind {α β : Type} (a : α) (next : α → Checked β) : (.ok a >>= next) = next a := rfl

theorem bind_eq_ok {α β : Type} {first : Checked α} {next : α → Checked β} {b : β} :
    (first >>= next) = .ok b ↔ ∃ a, first = .ok a ∧ next a = .ok b := by
  cases first with
  | error fault => simp [bind, Except.bind]
  | ok a => simp [bind, Except.bind]

end Roaring
