import Roaring.Proofs.Container.Algebra
import Roaring.Proofs.Container.CountRuns

/-! Re-encoding a container by size. The sizes of the three encodings are those of a model that sees
the number of values and of runs only; both stay when a container is re-encoded, so that the choice
is a smallest encoding of the container itself, and is taken again afterwards. -/
namespace Roaring

namespace Kind

variable {n runs bytes : Nat} {kind current : Kind}

/-- The fewest bytes for a number of values in a number of runs. More than 4096 values are not kept
as a list. -/
def leastSize (cardinality runCount : Nat) : Nat :=
  if cardinality ≤ 4096 then min (2 * cardinality) (min 8192 (2 + 4 * runCount))
  else min 8192 (2 + 4 * runCount)

theorem leastSize_zero (runCount : Nat) : leastSize 0 runCount = 0 := by
  simp [leastSize]

theorem leastSize_le (sized : size n runs kind = some bytes) : leastSize n runs ≤ bytes := by
  have bound : ArraySet.maxLength = 4096 := rfl
  rw [leastSize]
  cases kind with
  | array =>
    rw [size] at sized
    split at sized
    · obtain rfl := Option.some.inj sized
      rw [ArraySet.serializedSizeFor]
      split <;> omega
    · contradiction
  | bits =>
    obtain rfl := Option.some.inj sized
    rw [BitSet.serializedSize]
    split <;> omega
  | runs =>
    obtain rfl := Option.some.inj sized
    rw [RunSet.serializedSizeFor]
    split <;> omega

theorem isSmallest_iff : isSmallest n runs kind = true ↔ size n runs kind = some (leastSize n runs) := by
  have bound : ArraySet.maxLength = 4096 := rfl
  by_cases few : n ≤ ArraySet.maxLength
  · cases kind <;>
      simp only [isSmallest, size, leastSize, ← bound, if_pos few, ArraySet.serializedSizeFor,
        RunSet.serializedSizeFor, BitSet.serializedSize, List.all_cons, List.all_nil,
        Option.all_some, Bool.and_true, Bool.and_eq_true, decide_eq_true_eq,
        Option.some.injEq] <;>
      omega
  · cases kind <;>
      simp only [isSmallest, size, leastSize, ← bound, if_neg few, RunSet.serializedSizeFor,
        BitSet.serializedSize, List.all_cons, List.all_nil, Option.all_some, Option.all_none,
        Bool.and_true, Bool.true_and, Bool.and_eq_true, Bool.false_eq_true, decide_eq_true_eq,
        Option.some.injEq, reduceCtorEq] <;>
      omega

theorem size_inferBySize (n runs : Nat) (current : Kind) :
    size n runs (inferBySize n runs current) = some (leastSize n runs) := by
  by_cases none : n = 0
  · rw [none, inferBySize_zero, leastSize_zero]
    rfl
  · exact isSmallest_iff.mp (isSmallest_inferBySize none runs current)

/-- The current encoding is kept exactly when it takes the fewest bytes. -/
theorem inferBySize_eq_current_iff :
    inferBySize n runs current = current ↔ size n runs current = some (leastSize n runs) := by
  constructor
  · intro kept
    rw [← size_inferBySize n runs current, kept]
  · intro smallest
    by_cases none : n = 0
    · rw [none, leastSize_zero] at smallest
      rw [none, inferBySize_zero]
      cases current with
      | array => rfl
      | bits => simp [size, BitSet.serializedSize] at smallest
      | runs => simp [size, RunSet.serializedSizeFor] at smallest
    · rw [inferBySize, if_neg none, if_pos (isSmallest_iff.mpr smallest)]

end Kind

namespace Container

variable {c d : Container}

/-- The size model is right about well-formed containers. -/
theorem WellFormed.size_kind (formed : c.WellFormed) :
    Kind.size c.cardinality c.countRuns c.kind = some c.serializedSize := by
  cases c with
  | array s => exact if_pos formed.short
  | bits b => rfl
  | runs r => rfl

theorem WellFormed.mem_iff_of_members (formedC : c.WellFormed) (formedD : d.WellFormed)
    (same : d.members = c.members) (v : UInt16) : v ∈ d ↔ v ∈ c := by
  rw [← formedC.mem_members, ← formedD.mem_members, same]

/-- No encoding of the values takes fewer bytes than the size model says. -/
theorem WellFormed.leastSize_le (formedC : c.WellFormed) (formedD : d.WellFormed)
    (same : ∀ v, v ∈ d ↔ v ∈ c) :
    Kind.leastSize c.cardinality c.countRuns ≤ d.serializedSize := by
  rw [← formedD.ordered.cardinality_eq formedC.ordered same, ← formedD.countRuns_eq formedC same]
  exact Kind.leastSize_le formedD.size_kind

/-- What a container becomes when it is re-encoded by size. -/
structure Optimized (c d : Container) : Prop where
  kind : d.kind = Kind.inferBySize c.cardinality c.countRuns c.kind
  formed : d.WellFormed
  canonical : c.Canonical → d.Canonical
  members : d.members = c.members
  size : d.serializedSize = Kind.leastSize c.cardinality c.countRuns
  smallest : ∀ e : Container, e.WellFormed → e.members = c.members →
    d.serializedSize ≤ e.serializedSize
  empty : c.members = ∅ → d = .empty
  kept : d.kind = c.kind → d = c
  changed_iff : d.kind ≠ c.kind ↔ d.serializedSize < c.serializedSize
  settled : d.inferOptimalKind = d.kind

theorem optimize_spec (formed : c.WellFormed) : ∃ d, c.optimize = .ok d ∧ Optimized c d := by
  obtain ⟨d, done, formedD, kind, mem⟩ :=
    convertTo_spec formed c.inferOptimalKind inferOptimalKind_eq_array
  have chosen := kind.trans c.inferOptimalKind_eq
  have cardinality := formedD.ordered.cardinality_eq formed.ordered mem
  have runs := formedD.countRuns_eq formed mem
  have size : d.serializedSize = Kind.leastSize c.cardinality c.countRuns := by
    have sized := formedD.size_kind
    rw [cardinality, runs, chosen, Kind.size_inferBySize] at sized
    exact (Option.some.inj sized).symm
  refine ⟨d, done, ?_⟩
  constructor
  case kind => exact chosen
  case formed => exact formedD
  case canonical =>
    exact fun canonical => canonical.convertTo inferOptimalKind_eq_bits formedD kind mem
  case members =>
    ext v
    rw [formedD.mem_members, formed.mem_members, mem]
  case size => exact size
  case smallest =>
    intro e formedE same
    rw [size]
    exact formed.leastSize_le formedE (formed.mem_iff_of_members formedE same)
  case empty =>
    intro none
    have absent (v : UInt16) : v ∉ d := fun member => by
      have held := (formed.mem_members v).mpr ((mem v).mp member)
      rwa [none] at held
    have zero : c.cardinality = 0 := by
      rw [← cardinality]
      exact formedD.cardinality_eq_zero_iff.mpr absent
    rw [zero, Kind.inferBySize_zero] at chosen
    cases d with
    | array s => exact array_eq_empty s absent
    | bits b => contradiction
    | runs r => contradiction
  case kept =>
    intro same
    have stays : c.convertTo c.inferOptimalKind = .ok c := if_pos (same.symm.trans kind)
    exact Except.ok.inj (done.symm.trans stays)
  case changed_iff =>
    have least := formed.leastSize_le formed fun _ => Iff.rfl
    rw [chosen, ne_eq, Kind.inferBySize_eq_current_iff, formed.size_kind, size, Option.some.injEq]
    omega
  case settled =>
    rw [inferOptimalKind_eq, cardinality, runs, chosen, Kind.inferBySize_inferBySize]

/-- Re-encoding by size never fails on a well-formed container. It leaves the values in as few bytes as
any encoding of them takes, and changes the encoding exactly for a strict gain; a second time it changes
nothing. The way in which dense bits are spared a full count of their runs makes no difference. -/
theorem runOptimize_smallest (c : Container) (formed : c.WellFormed) :
    c.inferOptimalKind = Kind.inferBySize c.cardinality c.countRuns c.kind ∧
    ∃ d, Optimized c d ∧ c.optimize = .ok d ∧
      c.runOptimize = .ok (d, decide (d.serializedSize < c.serializedSize)) ∧
      d.optimize = .ok d ∧ d.runOptimize = .ok (d, false) := by
  obtain ⟨d, done, optimized⟩ := optimize_spec formed
  have stays : d.optimize = .ok d := by
    rw [optimize, optimized.settled]
    exact if_pos rfl
  refine ⟨c.inferOptimalKind_eq, d, optimized, done, ?_, stays, ?_⟩
  · have changed : (c.inferOptimalKind != c.kind) = decide (d.serializedSize < c.serializedSize) := by
      rw [Bool.eq_iff_iff, bne_iff_ne, decide_eq_true_eq, ← optimized.changed_iff,
        inferOptimalKind_eq, ← optimized.kind]
    rw [runOptimize, done, ← changed]
    rfl
  · rw [runOptimize, stays, optimized.settled, bne_self_eq_false]
    rfl

/-- Three neighbours take as many bytes as a list as they take as a run, and stay a list. A fourth
makes the run the smaller one. -/
theorem runOptimize_smallest_gain :
    let three := array ⟨#[7, 8, 9]⟩
    let four := array ⟨#[7, 8, 9, 10]⟩
    three.WellFormed ∧ four.WellFormed ∧
      three.runOptimize = .ok (three, false) ∧ three.serializedSize = 6 ∧
      ∃ d, Optimized four d ∧ four.runOptimize = .ok (d, true) ∧ d.serializedSize = 6 ∧
        d.runOptimize = .ok (d, false) := by
  intro three four
  have formedThree : three.WellFormed := by decide
  have formedFour : four.WellFormed := by decide
  obtain ⟨-, c, tie, -, doneThree, -⟩ := runOptimize_smallest three formedThree
  obtain ⟨-, d, gain, -, doneFour, -, again⟩ := runOptimize_smallest four formedFour
  have sizeC : c.serializedSize = 6 := tie.size.trans (by decide)
  have sizeD : d.serializedSize = 6 := gain.size.trans (by decide)
  have same : c = three := tie.kept (tie.kind.trans (by decide))
  subst same
  refine ⟨formedThree, formedFour, ?_, sizeC, d, gain, ?_, sizeD, again⟩
  · simpa using doneThree
  · rw [doneFour, sizeD]
    rfl

end Container

end Roaring
