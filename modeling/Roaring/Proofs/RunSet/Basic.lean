import Roaring.RunSet
import Roaring.Proofs.BitSet
import Roaring.Proofs.Words.Scan
import Roaring.Proofs.Words.Ranges
import Roaring.Proofs.Run.Algebra
import Mathlib.Data.List.Sort

/-! Sets of runs, described by what their runs cover, and their values: an ascending list of as many
values as the runs count. Lists of values and bits turn into canonical runs and back. -/
namespace Roaring

namespace Run

theorem count_eq (r : Run) (inside : r.stop ≤ 65536) :
    r.last.toNat + 1 - r.start.toNat = r.count := by
  rw [toNat_last r inside, count, stop]
  omega

theorem toList_values (r : Run) (inside : r.stop ≤ 65536) :
    r.values.toList = (List.range' r.start.toNat r.count).map Nat.toUInt16 := by
  simp [values, r.count_eq inside]

theorem toNat_value (r : Run) (inside : r.stop ≤ 65536) {n : Nat}
    (member : n ∈ List.range' r.start.toNat r.count) : n.toUInt16.toNat = n := by
  have bound := (List.mem_range'_1.mp member).2
  rw [← r.stop_eq] at bound
  exact toNat_toUInt16 (Nat.lt_of_lt_of_le bound inside)

theorem mem_values (r : Run) (inside : r.stop ≤ 65536) (v : UInt16) :
    v ∈ r.values.toList ↔ r.start.toNat ≤ v.toNat ∧ v.toNat < r.stop := by
  rw [toList_values r inside, List.mem_map, stop_eq]
  constructor
  · rintro ⟨n, member, rfl⟩
    rw [r.toNat_value inside member]
    exact List.mem_range'_1.mp member
  · intro bounds
    exact ⟨v.toNat, List.mem_range'_1.mpr bounds, by simp⟩

theorem values_ascending (r : Run) (inside : r.stop ≤ 65536) :
    r.values.toList.Pairwise (· < ·) := by
  rw [toList_values r inside, List.pairwise_map]
  apply List.Pairwise.imp_of_mem (R := (· < ·))
  · intro m n inM inN less
    rwa [UInt16.lt_iff_toNat_lt, r.toNat_value inside inM, r.toNat_value inside inN]
  · exact List.pairwise_lt_range'

theorem length_values (r : Run) (inside : r.stop ≤ 65536) : r.values.toList.length = r.count := by
  rw [toList_values r inside, List.length_map, List.length_range']

theorem covers_value_iff (runs : List Run) (inside : ∀ r ∈ runs, r.stop ≤ 65536) (v : UInt16) :
    v ∈ runs.flatMap (fun r => r.values.toList) ↔ Covers runs v.toNat := by
  rw [List.mem_flatMap]
  constructor
  · rintro ⟨r, member, value⟩
    exact ⟨r, member, (mem_values r (inside r member) v).mp value⟩
  · rintro ⟨r, member, bounds⟩
    exact ⟨r, member, (mem_values r (inside r member) v).mpr bounds⟩

theorem Canonical.values_ascending {runs : List Run} (canonical : Canonical runs) :
    (runs.flatMap (fun r => r.values.toList)).Pairwise (· < ·) := by
  induction runs with
  | nil => exact List.Pairwise.nil
  | cons r runs ih =>
    rw [List.flatMap_cons]
    refine List.pairwise_append.mpr ⟨r.values_ascending canonical.stop_le, ih canonical.tail, ?_⟩
    intro u first v later
    have low := ((mem_values r canonical.stop_le u).mp first).2
    have gap := canonical.stop_lt _ ((covers_value_iff runs canonical.tail.2 v).mp later)
    rw [UInt16.lt_iff_toNat_lt]
    omega

end Run

namespace RunSet

instance : Membership UInt16 RunSet := ⟨fun s v => Run.Covers s.runs.toList v.toNat⟩

instance (s : RunSet) (v : UInt16) : Decidable (v ∈ s) :=
  inferInstanceAs (Decidable (Run.Covers s.runs.toList v.toNat))

theorem mem_def (s : RunSet) (v : UInt16) : v ∈ s ↔ Run.Covers s.runs.toList v.toNat := Iff.rfl

theorem toList_values (s : RunSet) :
    s.values.toList = s.runs.toList.flatMap (fun r => r.values.toList) := by
  rw [values, Array.toList_flatMap]

theorem WellFormed.mem_values {s : RunSet} (formed : s.WellFormed) (v : UInt16) :
    v ∈ s.values ↔ v ∈ s := by
  rw [← Array.mem_toList_iff, toList_values, Run.covers_value_iff _ formed.2, mem_def]

theorem WellFormed.values_ascending {s : RunSet} (formed : s.WellFormed) :
    s.values.toList.Pairwise (· < ·) := by
  rw [toList_values]
  exact Run.Canonical.values_ascending formed

theorem WellFormed.size_values {s : RunSet} (formed : s.WellFormed) :
    s.values.size = s.cardinality := by
  have added (runs : List Run) (n : Nat) (inside : ∀ r ∈ runs, r.stop ≤ 65536) :
      runs.foldl (fun n r => n + r.count) n =
        n + (runs.flatMap (fun r => r.values.toList)).length := by
    induction runs generalizing n with
    | nil => rfl
    | cons r runs ih =>
      rw [List.foldl_cons, ih _ fun q later => inside q (List.mem_cons_of_mem _ later),
        List.flatMap_cons, List.length_append, r.length_values (inside r List.mem_cons_self),
        Nat.add_assoc]
  rw [cardinality, ← Array.foldl_toList, added _ _ formed.2, Nat.zero_add, ← toList_values,
    Array.length_toList]

theorem isEmpty_iff (s : RunSet) : s.isEmpty = true ↔ s.runs = #[] := by
  simp [isEmpty]

theorem mem_full (v : UInt16) : v ∈ full := by
  have low := v.toNat_lt
  rw [mem_def]
  exact ⟨⟨0, 65535⟩, by simp [full], by simp, by simpa [Run.stop] using low⟩

theorem wellFormed_full : full.WellFormed := Run.canonical_singleton _ (by decide)

theorem isFull_iff (s : RunSet) : s.isFull = true ↔ s = full := by
  rw [isFull, beq_iff_eq, full]
  cases s
  simp

/-! Conversions. -/

/-- Ascending values, each as a run of its own, are ready to be joined. -/
theorem staged_points (values : List UInt16) (sorted : values.Pairwise (· < ·)) :
    Run.Staged (values.map Run.point) := by
  constructor
  · rw [List.pairwise_map]
    apply sorted.imp
    intro u v less
    exact Nat.le_of_lt (UInt16.lt_iff_toNat_lt.mp less)
  · intro r member
    obtain ⟨v, -, rfl⟩ := List.mem_map.mp member
    have low := v.toNat_lt
    rw [Run.stop_point]
    omega

theorem covers_points (values : List UInt16) (v : UInt16) :
    Run.Covers (values.map Run.point) v.toNat ↔ v ∈ values := by
  constructor
  · rintro ⟨r, member, low, high⟩
    obtain ⟨u, inside, rfl⟩ := List.mem_map.mp member
    rw [Run.start_point] at low
    rw [Run.stop_point] at high
    have same : u = v := UInt16.toNat_inj.mp (by omega)
    exact same ▸ inside
  · intro member
    exact ⟨Run.point v, List.mem_map_of_mem member, Nat.le_refl _, Nat.lt_succ_self _⟩

theorem ofSortedValues_spec (values : Array UInt16) (sorted : values.toList.Pairwise (· < ·)) :
    (ofSortedValues values).WellFormed ∧ ∀ v, v ∈ ofSortedValues values ↔ v ∈ values := by
  obtain ⟨canonical, covers⟩ := Run.coalesceAll_spec _ (staged_points values.toList sorted)
  refine ⟨canonical, ?_⟩
  intro v
  rw [mem_def, ofSortedValues, covers, covers_points, Array.mem_toList_iff]

theorem toBitSet_spec (s : RunSet) (formed : s.WellFormed) :
    ∃ b, s.toBitSet = .ok b ∧ b.WellFormed ∧ ∀ v, v ∈ b ↔ v ∈ s := by
  obtain ⟨b, done, formedB, tests⟩ := BitSet.ofRuns_spec s.runs formed
  refine ⟨b, done, formedB, ?_⟩
  intro v
  rw [BitSet.mem_def, tests, decide_eq_true_eq, mem_def]

/-- The scanned ranges are maximal already, so that joining them changes nothing. -/
theorem runs_toRunSet (b : BitSet) :
    b.toRunSet.runs.toList = b.words.ranges.toList.map Run.ofSpan ∧ b.toRunSet.WellFormed ∧
      ∀ n, Run.Covers b.toRunSet.runs.toList n ↔ b.words.test n = true := by
  obtain ⟨canonical, covers⟩ := b.words.canonical_ranges
  have kept : b.words.ranges.toList.filter (fun range => !range.isEmpty) = b.words.ranges.toList := by
    rw [List.filter_eq_self]
    intro s member
    have := (b.words.ranges_spec.1.inside s member).1
    simp only [Span.isEmpty, Bool.not_eq_true', decide_eq_false_iff_not]
    omega
  obtain ⟨joined, coversJoined⟩ := Run.coalesceAll_spec _ canonical.staged
  have runs : b.toRunSet.runs.toList = b.words.ranges.toList.map Run.ofSpan := by
    rw [BitSet.toRunSet, ofRanges, kept]
    exact Run.Canonical.ext joined canonical coversJoined
  refine ⟨runs, ?_, ?_⟩
  · rw [WellFormed, runs]
    exact canonical
  · intro n
    rw [runs, covers n]

theorem mem_toRunSet (b : BitSet) (v : UInt16) : v ∈ b.toRunSet ↔ v ∈ b := by
  rw [mem_def, (runs_toRunSet b).2.2, BitSet.mem_def]

end RunSet

end Roaring
