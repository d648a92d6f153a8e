import Mathlib.Data.Set.Card
import Mathlib.Order.Interval.Set.Nat
import Roaring.Proofs.Container.Count

/-! Set algebra on lists of runs is set algebra on the numbers that they cover. The results are
canonical again, so that neighbours that touch never stay apart; and what two lists share can be
counted without building it. -/
namespace Roaring

def SetOp.onRuns : SetOp → List Run → List Run → Array Run
  | inter => Run.inter
  | union => Run.union
  | symmDiff => Run.symmDiff
  | diff => Run.diff

namespace Run

variable {a b runs : List Run}

def coverage (runs : List Run) : Set Nat := {n | Covers runs n}

theorem coverage_cons (r : Run) (runs : List Run) :
    coverage (r :: runs) = Set.Ico r.start.toNat r.stop ∪ coverage runs := by
  ext n
  exact covers_cons r runs n

theorem Canonical.finite_coverage (canonical : Canonical runs) : (coverage runs).Finite :=
  (Set.finite_Iio 65536).subset canonical.lt_of_covers

/-- The runs of a canonical list have no number in common, so that their lengths add up. -/
theorem Canonical.ncard_coverage (canonical : Canonical runs) :
    (coverage runs).ncard = (runs.map count).sum := by
  induction runs with
  | nil => simp [coverage]
  | cons r runs ih =>
    have apart : Disjoint (Set.Ico r.start.toNat r.stop) (coverage runs) := by
      rw [Set.disjoint_left]
      intro n inside covered
      have past := canonical.stop_lt n covered
      exact Nat.lt_asymm past inside.2
    have here : (Set.Ico r.start.toNat r.stop).ncard = r.count := by
      rw [Set.ncard_Ico_nat, r.stop_eq, Nat.add_sub_cancel_left]
    rw [coverage_cons, Set.ncard_union_eq apart (Set.finite_Ico _ _) canonical.tail.finite_coverage,
      here, ih canonical.tail, List.map_cons, List.sum_cons]

theorem onRuns_spec (op : SetOp) (canonicalA : Canonical a) (canonicalB : Canonical b) :
    Canonical (op.onRuns a b).toList ∧
      ∀ n, Covers (op.onRuns a b).toList n ↔ op.Keeps (Covers a n) (Covers b n) := by
  cases op with
  | inter => exact inter_spec a b canonicalA canonicalB
  | union => exact union_spec a b canonicalA canonicalB
  | symmDiff => exact symmDiff_spec a b canonicalA canonicalB
  | diff => exact diff_spec a b canonicalA canonicalB

/-- On canonical lists each operation gives the canonical list that covers what the operation keeps of
the numbers covered. Counting what two lists share gives the number of values that the intersection
covers. -/
theorem coverage_onRuns (a b : List Run) (canonicalA : Canonical a) (canonicalB : Canonical b) :
    (∀ op : SetOp, Canonical (op.onRuns a b).toList ∧
      coverage (op.onRuns a b).toList = op.onSets (coverage a) (coverage b)) ∧
    RunSet.interCount ⟨a.toArray⟩ ⟨b.toArray⟩ = (coverage (inter a b).toList).ncard := by
  refine ⟨fun op => ?_, ?_⟩
  · obtain ⟨canonical, covers⟩ := onRuns_spec op canonicalA canonicalB
    refine ⟨canonical, ?_⟩
    ext n
    rw [SetOp.mem_onSets]
    exact covers n
  · have shared := (inter_spec a b canonicalA canonicalB).1
    have formed : RunSet.WellFormed ⟨a.toArray⟩ := canonicalA
    rw [RunSet.interCount_eq _ _ formed, RunSet.cardinality_eq_sum, shared.ncard_coverage]
    rfl

/-- Runs that touch at both ends, a run that is cut twice, and the last value of the domain. -/
theorem coverage_onRuns_touching :
    let a : List Run := [⟨0, 9⟩, ⟨20, 65515⟩]
    let b : List Run := [⟨10, 9⟩, ⟨100, 99⟩, ⟨65535, 0⟩]
    Canonical a ∧ Canonical b ∧
      coverage (union a b).toList = coverage a ∪ coverage b ∧ union a b = #[⟨0, 65535⟩] ∧
      coverage (diff a b).toList = coverage a \ coverage b ∧
      diff a b = #[⟨0, 9⟩, ⟨20, 79⟩, ⟨200, 65334⟩] ∧
      (coverage (inter a b).toList).ncard = 101 := by
  intro a b
  have canonicalA : Canonical a := by decide
  have canonicalB : Canonical b := by decide
  obtain ⟨operations, count⟩ := coverage_onRuns a b canonicalA canonicalB
  have joined : union a b = #[⟨0, 65535⟩] := by
    have merged : a.merge b (fun x y => x.start ≤ y.start) =
        [⟨0, 9⟩, ⟨10, 9⟩, ⟨20, 65515⟩, ⟨100, 99⟩, ⟨65535, 0⟩] := by simp [a, b]
    rw [union, merged]
    decide
  refine ⟨canonicalA, canonicalB, (operations .union).2, joined, (operations .diff).2, by decide, ?_⟩
  rw [← count]
  decide +kernel

end Run

end Roaring
