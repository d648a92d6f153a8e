import Mathlib.Algebra.GroupWithZero.Nat
import Roaring.Proofs.Bitmap.Optimize
import Roaring.Proofs.Container.CountRuns

/-! The size of the serialized form under a plan. Sizes see only the cardinality, the number of runs
and whether a container is one of runs; so a plan costs the same before it is carried out and after.
It follows that the pass never makes the form larger, and that a second pass finds nothing to do. -/
namespace Roaring

namespace Container

variable {c d : Container}

theorem WellFormed.payloadSizeAs_eq (formedC : c.WellFormed) (formedD : d.WellFormed)
    (same : ∀ v, v ∈ c ↔ v ∈ d) (kind : Kind) : c.payloadSizeAs kind = d.payloadSizeAs kind := by
  rw [payloadSizeAs, payloadSizeAs, formedC.ordered.cardinality_eq formedD.ordered same,
    formedC.countRuns_eq formedD same]

/-- Other than runs, the encoding makes no difference to the payload. -/
theorem payloadSizeAs_of_ne_runs (c : Container) {j k : Kind} (plainJ : j ≠ .runs)
    (plainK : k ≠ .runs) : c.payloadSizeAs j = c.payloadSizeAs k := by
  rw [payloadSizeAs, payloadSizeAs, if_neg plainJ, if_neg plainK]

theorem WellFormed.inferOptimalKind_eq (formedC : c.WellFormed) (formedD : d.WellFormed)
    (same : ∀ v, v ∈ d ↔ v ∈ c) :
    d.inferOptimalKind = Kind.inferBySize c.cardinality c.countRuns d.kind := by
  rw [Container.inferOptimalKind_eq, formedD.ordered.cardinality_eq formedC.ordered same,
    formedD.countRuns_eq formedC same]

end Container

namespace Bitmap

def sizeUnder (plan : Entry → Kind) (entries : List Entry) : Nat :=
  Codec.headerSize entries.length (entries.any fun e => plan e == .runs) +
    (entries.map fun e => e.container.payloadSizeAs (plan e)).sum

theorem serializedSize_eq (b : Bitmap) :
    b.serializedSize = sizeUnder (fun e => e.container.kind) b.entries.toList := by
  rw [serializedSize, ← Array.foldl_toList, sizeUnder, List.sum_eq_foldl, List.foldl_map, hasRuns,
    ← Array.any_toList]
  rfl

theorem serializedSizeAs_map (b : Bitmap) (plan : Entry → Kind) :
    b.serializedSizeAs (b.entries.map plan) = sizeUnder plan b.entries.toList := by
  rw [serializedSizeAs, zip_map_self, ← Array.foldl_toList, Array.toList_map, List.foldl_map,
    sizeUnder, List.sum_eq_foldl, List.foldl_map, Array.contains_map, ← Array.any_toList]
  simp only [BEq.comm (a := Kind.runs)]
  rfl

theorem sizeUnder_congr {related : Entry → Entry → Prop} {before after : Entry → Kind}
    {ds es : List Entry} (same : List.Forall₂ related ds es)
    (each : ∀ d e, related d e → (after e = .runs ↔ before d = .runs) ∧
      e.container.payloadSizeAs (after e) = d.container.payloadSizeAs (before d)) :
    sizeUnder after es = sizeUnder before ds := by
  have alike : (es.any fun e => after e == .runs) = (ds.any fun d => before d == .runs) ∧
      es.map (fun e => e.container.payloadSizeAs (after e)) =
        ds.map fun d => d.container.payloadSizeAs (before d) := by
    induction same with
    | nil => exact ⟨rfl, rfl⟩
    | @cons d e ds es first rest ih =>
      obtain ⟨runs, size⟩ := each d e first
      have head : (after e == .runs) = (before d == .runs) := by
        rw [Bool.eq_iff_iff, beq_iff_eq, beq_iff_eq, runs]
      exact ⟨by rw [List.any_cons, List.any_cons, head, ih.1],
        by rw [List.map_cons, List.map_cons, size, ih.2]⟩
  rw [sizeUnder, sizeUnder, same.length_eq, alike.1, alike.2]

/-! The pass. -/

def Recoded (plan : Entry → Kind) (d e : Entry) : Prop :=
  Reencoded .wellFormed d e ∧ e.container.kind = plan d

namespace Recoded

variable {plan : Entry → Kind} {d e : Entry}

theorem payloadSizeAs_eq (recoded : Recoded plan d e) (kind : Kind) :
    e.container.payloadSizeAs kind = d.container.payloadSizeAs kind :=
  Container.WellFormed.payloadSizeAs_eq recoded.1.good recoded.1.before recoded.1.mem_iff kind

theorem smallestKind_eq (recoded : Recoded plan d e) :
    smallestKind e = Kind.inferBySize d.container.cardinality d.container.countRuns (plan d) := by
  rw [smallestKind, ← recoded.2]
  exact Container.WellFormed.inferOptimalKind_eq recoded.1.before recoded.1.good recoded.1.mem_iff

/-- A container in its smallest encoding stays in it. -/
theorem smallestKind_of_smallest (recoded : Recoded smallestKind d e) :
    smallestKind e = e.container.kind := by
  rw [recoded.smallestKind_eq, recoded.2, smallestKind, Container.inferOptimalKind_eq,
    Kind.inferBySize_inferBySize]

theorem smallestKind_of_beside (recoded : Recoded kindBesideRuns d e) :
    smallestKind e = smallestKind d := by
  rw [recoded.smallestKind_eq, kindBesideRuns]
  split
  · rw [smallestKind, Container.inferOptimalKind_eq]
  · rw [smallestKind, Container.inferOptimalKind_eq, Kind.inferBySize_inferBySize]

theorem kindBesideRuns_of_beside (recoded : Recoded kindBesideRuns d e) :
    kindBesideRuns e = e.container.kind := by
  have kept := recoded.2
  rw [kindBesideRuns, recoded.smallestKind_of_beside]
  split
  · rfl
  · rename_i plain
    obtain ⟨smallest, other⟩ := not_or.mp plain
    rw [kindBesideRuns] at kept
    split at kept
    · rename_i runs
      exact absurd (kept.trans (runs.resolve_left smallest)) other
    · exact kept.symm

end Recoded

/-- Once carried out, a plan costs what it was said to cost. -/
theorem serializedSize_recoded {b c : Bitmap} {plan : Entry → Kind}
    (same : List.Forall₂ (Recoded plan) b.entries.toList c.entries.toList) :
    c.serializedSize = b.serializedSizeAs (b.entries.map plan) := by
  rw [serializedSize_eq, serializedSizeAs_map]
  refine sizeUnder_congr same fun d e recoded => ⟨by rw [recoded.2], ?_⟩
  rw [recoded.2, recoded.payloadSizeAs_eq]

/-- Without changes to or from runs the size stays as it is. -/
theorem serializedSizeAs_kindBesideRuns (b : Bitmap) :
    b.serializedSizeAs (b.entries.map kindBesideRuns) = b.serializedSize := by
  rw [serializedSize_eq, serializedSizeAs_map]
  refine sizeUnder_congr (List.forall₂_same.mpr fun _ _ => rfl) fun d e same => ?_
  subst same
  rw [kindBesideRuns]
  split
  · exact ⟨Iff.rfl, rfl⟩
  · rename_i plain
    obtain ⟨smallest, other⟩ := not_or.mp plain
    exact ⟨iff_of_false smallest other, d.container.payloadSizeAs_of_ne_runs smallest other⟩

/-- A plan to leave everything as it is leaves everything as it is. -/
theorem runOptimize_of_planned {b : Bitmap}
    (planned : ∀ e ∈ b.entries, b.planOf e = e.container.kind) :
    b.runOptimize = .ok ⟨b, 0⟩ := by
  obtain ⟨entries, done, same⟩ := array_mapM_ok (fun d e => d = e)
    (fun e : Entry => do return ⟨e.key, ← e.container.convertTo (b.planOf e)⟩) b.entries (by
      intro e member
      have kept : e.container.convertTo e.container.kind = .ok e.container := if_pos rfl
      exact ⟨e, by rw [planned e member, kept]; rfl, rfl⟩)
  obtain rfl : b.entries = entries := Array.toList_inj.mp (List.forall₂_eq_eq_eq ▸ same)
  have none : (b.entries.map fun e => (e, b.planOf e)).countP
      (fun p => p.1.container.kind != p.2) = 0 := by
    rw [Array.countP_eq_zero]
    intro p member
    obtain ⟨e, inside, rfl⟩ := Array.mem_map.mp member
    simp [planned e inside]
  rw [runOptimize, plannedKinds_eq, zip_map_self]
  simp only [Array.mapM_map, Function.comp_def]
  rw [done, none]
  rfl

/-- What holds of every entry that the pass has made holds of all entries after it. -/
theorem forall_recoded {plan : Entry → Kind} {holds : Entry → Prop} {b c : Bitmap}
    (same : List.Forall₂ (Recoded plan) b.entries.toList c.entries.toList)
    (each : ∀ d e, Recoded plan d e → holds e) : ∀ e ∈ c.entries, holds e := by
  have both := (List.forall₂_and_left _ _).mp
    (same.flip.imp fun e d recoded => ⟨each d e recoded, recoded⟩)
  exact fun e member => both.1 e (Array.mem_toList_iff.mpr member)

theorem optimalKinds_eq (b : Bitmap) : b.optimalKinds = b.entries.map smallestKind := rfl

/-- After the pass the plan is to leave everything as it is, whichever way the pass went. -/
theorem planOf_recoded {b c : Bitmap}
    (same : List.Forall₂ (Recoded b.planOf) b.entries.toList c.entries.toList) :
    c.serializedSize = min b.serializedSize (b.serializedSizeAs b.optimalKinds) ∧
      ∀ e ∈ c.entries, c.planOf e = e.container.kind := by
  have size := serializedSize_recoded same
  by_cases grows : b.serializedSize < b.serializedSizeAs b.optimalKinds
  · have plan : b.planOf = kindBesideRuns := if_pos grows
    rw [plan] at same size
    rw [serializedSizeAs_kindBesideRuns] at size
    have optimal : c.serializedSizeAs c.optimalKinds = b.serializedSizeAs b.optimalKinds := by
      rw [optimalKinds_eq, optimalKinds_eq, serializedSizeAs_map, serializedSizeAs_map]
      refine sizeUnder_congr same fun d e recoded => ?_
      rw [recoded.smallestKind_of_beside, recoded.payloadSizeAs_eq]
      exact ⟨Iff.rfl, rfl⟩
    have again : c.planOf = kindBesideRuns := if_pos (size ▸ optimal ▸ grows)
    refine ⟨size.trans (Nat.min_eq_left (Nat.le_of_lt grows)).symm, ?_⟩
    rw [again]
    exact forall_recoded same fun d e recoded => recoded.kindBesideRuns_of_beside
  · have plan : b.planOf = smallestKind := if_neg grows
    rw [plan] at same size
    rw [← optimalKinds_eq] at size
    have kinds := forall_recoded same fun d e recoded => recoded.smallestKind_of_smallest
    refine ⟨size.trans (Nat.min_eq_right (Nat.le_of_not_lt grows)).symm, fun e member => ?_⟩
    rcases c.planOf_cases e with smallest | own
    · exact smallest.trans (kinds e member)
    · exact own

/-- The pass keeps keys and values and never makes the serialized form larger: its size is that of
the smaller of the bitmap and the plan of smallest encodings. A second pass finds nothing to do. -/
theorem runOptimize_settles (b : Bitmap) (formed : ∀ e ∈ b.entries, e.container.WellFormed) :
    ∃ o, b.runOptimize = .ok o ∧
      o.bitmap.keys = b.keys ∧
      List.Forall₂ (fun d e : Entry =>
          e.container.WellFormed ∧ ∀ v, v ∈ e.container ↔ v ∈ d.container)
        b.entries.toList o.bitmap.entries.toList ∧
      o.bitmap.serializedSize = min b.serializedSize (b.serializedSizeAs b.optimalKinds) ∧
      o.bitmap.serializedSize ≤ b.serializedSize ∧
      (o.leftRuns = true ↔ ∃ e ∈ o.bitmap.entries, e.container.kind = .runs) ∧
      ∃ again, o.bitmap.runOptimize = .ok again ∧ again.bitmap = o.bitmap ∧
        again.converted = 0 ∧ again.leftRuns = o.leftRuns := by
  obtain ⟨o, done, same⟩ := runOptimize_planned (g := .wellFormed) formed
  obtain ⟨size, settled⟩ := planOf_recoded same
  refine ⟨o, done, ?_, same.imp fun d e recoded => ⟨recoded.1.good, recoded.1.mem_iff⟩, size,
    size ▸ Nat.min_le_left _ _, ?_, ⟨o.bitmap, 0⟩, runOptimize_of_planned settled, rfl, rfl, rfl⟩
  · have keys : List.Forall₂ (fun x y => x = y) (o.bitmap.entries.toList.map Entry.key)
        (b.entries.toList.map Entry.key) := by
      rw [List.forall₂_map_left_iff, List.forall₂_map_right_iff]
      exact same.flip.imp fun e d recoded => recoded.1.key
    rw [List.forall₂_eq_eq_eq] at keys
    rw [Bitmap.keys, Bitmap.keys, ← Array.toList_inj, Array.toList_map, Array.toList_map, keys]
  · rw [Optimized.leftRuns, hasRuns, Array.any_eq_true']
    simp

theorem runOptimize_settles_two_keys :
    ∃ o, runOptimize ⟨#[⟨0, .runs ⟨#[⟨0, 0⟩]⟩⟩, ⟨7, .array ⟨#[5, 6, 7, 8]⟩⟩]⟩ = .ok o ∧
      o.bitmap.keys = #[0, 7] ∧ o.bitmap.serializedSize = 21 ∧
      ∃ again, o.bitmap.runOptimize = .ok again ∧ again.bitmap = o.bitmap := by
  obtain ⟨o, done, keys, -, size, -, -, again, twice, same, -⟩ := runOptimize_settles
    ⟨#[⟨0, .runs ⟨#[⟨0, 0⟩]⟩⟩, ⟨7, .array ⟨#[5, 6, 7, 8]⟩⟩]⟩ (by decide)
  exact ⟨o, done, keys.trans (by decide +kernel), size.trans (by decide +kernel), again, twice,
    same⟩

/-- Runs can be kept for the sake of the header alone. -/
example : (⟨#[⟨0, .runs ⟨#[⟨0, 0⟩]⟩⟩]⟩ : Bitmap).optimalKinds = #[.array] ∧
    (⟨#[⟨0, .runs ⟨#[⟨0, 0⟩]⟩⟩]⟩ : Bitmap).plannedKinds = #[.runs] := by decide +kernel

end Bitmap

end Roaring
