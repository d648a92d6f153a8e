import Roaring.Container.Convert
import Roaring.Proofs.Container.Members
import Roaring.Proofs.Words.RunStarts

/-! Re-encoding keeps the values of well-formed containers and never fails on them. What the algebra
hands out is settled: canonical, and the empty list when it holds nothing. -/
namespace Roaring

namespace Kind

theorem cardinality_le_of_inferBySize {n runs : Nat} {current : Kind}
    (chosen : inferBySize n runs current = .array) : n ≤ ArraySet.maxLength := by
  have few (smallest : isSmallest n runs .array = true) : n ≤ ArraySet.maxLength := by
    rw [isSmallest, size] at smallest
    by_contra many
    simp [many] at smallest
  rw [inferBySize] at chosen
  split at chosen
  · omega
  · split at chosen
    · rename_i smallest
      rw [chosen] at smallest
      exact few smallest
    · split at chosen
      · rename_i smallest
        exact few smallest
      · split at chosen <;> contradiction

/-- Few values are not turned into bits: a list of them is no larger, and is preferred. -/
theorem lt_of_inferBySize_eq_bits {n runs : Nat} {current : Kind}
    (chosen : inferBySize n runs current = .bits) (other : current ≠ .bits) :
    ArraySet.maxLength < n := by
  by_contra many
  have few : n ≤ ArraySet.maxLength := Nat.le_of_not_lt many
  have bound : n ≤ 4096 := few
  rw [inferBySize] at chosen
  split at chosen
  · contradiction
  · split at chosen
    · exact other chosen
    · split at chosen
      · contradiction
      · split at chosen
        · contradiction
        · rename_i notArray notRuns
          simp only [isSmallest, size, if_pos few, ArraySet.serializedSizeFor,
            RunSet.serializedSizeFor, BitSet.serializedSize, List.all_cons, List.all_nil,
            Option.all_some, Bool.and_true, Bool.and_eq_true, decide_eq_true_eq] at notArray notRuns
          omega

theorem inferBySize_zero (runs : Nat) (current : Kind) : inferBySize 0 runs current = .array := by
  simp [inferBySize]

/-- Whichever encoding is chosen for some values, none takes fewer bytes. -/
theorem isSmallest_inferBySize {n : Nat} (some : n ≠ 0) (runs : Nat) (current : Kind) :
    isSmallest n runs (inferBySize n runs current) = true := by
  rw [inferBySize, if_neg some]
  split
  · assumption
  · split
    · assumption
    · split
      · assumption
      · rename_i notArray notRuns
        simp only [isSmallest, size, ArraySet.serializedSizeFor, RunSet.serializedSizeFor,
          BitSet.serializedSize, List.all_cons, List.all_nil, Option.all_some, Bool.and_true,
          Bool.and_eq_true, decide_eq_true_eq] at notArray notRuns ⊢
        have bound : ArraySet.maxLength = 4096 := rfl
        by_cases few : n ≤ ArraySet.maxLength
        · simp only [if_pos few, Option.all_some, Bool.and_eq_true, decide_eq_true_eq]
            at notArray notRuns ⊢
          omega
        · simp only [if_neg few, Option.all_none, true_and] at notRuns ⊢
          omega

theorem inferBySize_bits {n runs : Nat} (dense : ArraySet.maxLength < n) (many : 2047 < runs) :
    inferBySize n runs .bits = .bits := by
  have smallest : isSmallest n runs .bits = true := by
    simp only [isSmallest, size, if_neg (Nat.not_le.mpr dense), RunSet.serializedSizeFor,
      BitSet.serializedSize, List.all_cons, List.all_nil, Option.all_some, Option.all_none,
      Bool.and_true, Bool.true_and, Bool.and_eq_true, decide_eq_true_eq]
    omega
  rw [inferBySize, if_neg (Nat.ne_zero_of_lt dense), if_pos smallest]

/-- The choice, once taken, is taken again. -/
theorem inferBySize_inferBySize (n runs : Nat) (current : Kind) :
    inferBySize n runs (inferBySize n runs current) = inferBySize n runs current := by
  by_cases none : n = 0
  · rw [none, inferBySize_zero, inferBySize_zero]
  · rw [inferBySize, if_neg none, if_pos (isSmallest_inferBySize none runs current)]

end Kind

namespace Container

variable {c d : Container}

theorem Ordered.values_eq (orderedC : c.Ordered) (orderedD : d.Ordered)
    (same : ∀ v, v ∈ c ↔ v ∈ d) : c.values = d.values := by
  apply Array.toList_inj.mp
  apply List.Pairwise.eq_of_mem_iff orderedC.values_ascending orderedD.values_ascending
  intro v
  rw [Array.mem_toList_iff, Array.mem_toList_iff, orderedC.mem_values, orderedD.mem_values, same]

theorem Ordered.cardinality_eq (orderedC : c.Ordered) (orderedD : d.Ordered)
    (same : ∀ v, v ∈ c ↔ v ∈ d) : c.cardinality = d.cardinality := by
  rw [← orderedC.size_values, ← orderedD.size_values, orderedC.values_eq orderedD same]

theorem WellFormed.cardinality_eq_length (formed : c.WellFormed) (list : List UInt16)
    (sorted : list.Pairwise (· < ·)) (same : ∀ v, v ∈ list ↔ v ∈ c) :
    c.cardinality = list.length := by
  rw [← formed.size_values, ← Array.length_toList]
  congr 1
  apply List.Pairwise.eq_of_mem_iff formed.values_ascending sorted
  intro v
  rw [Array.mem_toList_iff, formed.mem_values, same]

theorem WellFormed.cardinality_le (formedC : c.WellFormed) (formedD : d.WellFormed)
    (fewer : ∀ v ∈ c, v ∈ d) : c.cardinality ≤ d.cardinality := by
  have distinct : c.values.toList.Nodup := formedC.values_ascending.imp UInt16.ne_of_lt
  have inside : c.values.toList ⊆ d.values.toList := by
    intro v member
    rw [Array.mem_toList_iff] at member ⊢
    exact (formedD.mem_values v).mpr (fewer v ((formedC.mem_values v).mp member))
  have short := (distinct.subperm inside).length_le
  rw [Array.length_toList, Array.length_toList, formedC.size_values, formedD.size_values] at short
  exact short

theorem WellFormed.cardinality_lt (formedC : c.WellFormed) (formedD : d.WellFormed)
    (fewer : ∀ v ∈ c, v ∈ d) (v : UInt16) (inside : v ∈ d) (absent : v ∉ c) :
    c.cardinality < d.cardinality := by
  have distinct : (v :: c.values.toList).Nodup := by
    refine List.nodup_cons.mpr ⟨?_, formedC.values_ascending.imp UInt16.ne_of_lt⟩
    rw [Array.mem_toList_iff, formedC.mem_values]
    exact absent
  have subset : v :: c.values.toList ⊆ d.values.toList := by
    intro u member
    rw [Array.mem_toList_iff, formedD.mem_values]
    rcases List.mem_cons.mp member with rfl | old
    · exact inside
    · exact fewer u ((formedC.mem_values u).mp (Array.mem_toList_iff.mp old))
  have short := (distinct.subperm subset).length_le
  rw [List.length_cons, Array.length_toList, Array.length_toList, formedC.size_values,
    formedD.size_values] at short
  exact short

theorem WellFormed.canonical_of_kind_ne_bits (formed : c.WellFormed) (other : c.kind ≠ .bits) :
    c.Canonical := by
  refine ⟨formed, ?_⟩
  rintro b rfl
  exact absurd rfl other

theorem canonical_empty : empty.Canonical :=
  wellFormed_empty.canonical_of_kind_ne_bits (by decide)

theorem canonical_full : full.Canonical := wellFormed_full.canonical_of_kind_ne_bits (by decide)

/-- A canonical container that holds the values asked for, and is the empty list for none. -/
structure Settled (c : Container) (keep : UInt16 → Prop) : Prop where
  canonical : c.Canonical
  mem_iff : ∀ v, v ∈ c ↔ keep v
  empty : (∀ v, ¬ keep v) → c = .empty

theorem Settled.congr {keep keep' : UInt16 → Prop} (settled : Settled c keep)
    (same : ∀ v, keep v ↔ keep' v) : Settled c keep' :=
  ⟨settled.canonical, fun v => (settled.mem_iff v).trans (same v),
    fun none => settled.empty fun v kept => none v ((same v).mp kept)⟩

theorem settled_array (s : ArraySet) (keep : UInt16 → Prop) (formed : s.WellFormed)
    (mem : ∀ v, v ∈ s ↔ keep v) : Settled (array s) keep := by
  refine ⟨WellFormed.canonical_of_kind_ne_bits formed (by simp [kind]), mem, ?_⟩
  intro none
  exact array_eq_empty s fun v member => none v ((mem v).mp member)

theorem Canonical.eq_empty (canonical : c.Canonical) (plain : c.kind ≠ .runs)
    (none : ∀ v, v ∉ c) : c = .empty := by
  cases c with
  | array s => exact array_eq_empty s none
  | bits b =>
    have counted := canonical.1.cardinality_eq_zero_iff.mpr none
    have dense := canonical.2 b rfl
    change b.cardinality = 0 at counted
    omega
  | runs r => exact absurd rfl plain

theorem settled_full (keep : UInt16 → Prop) (all : ∀ v, keep v) : Settled full keep :=
  ⟨canonical_full, fun v => ⟨fun _ => all v, fun _ => mem_full v⟩, fun none => absurd (all 0) (none 0)⟩

/-- Bits become a list when they are few; a well-formed set of bits is never lost. -/
theorem settled_ofBits (b : BitSet) (keep : UInt16 → Prop) (formed : b.WellFormed)
    (mem : ∀ v, v ∈ b ↔ keep v) : Settled (ofBits b) keep := by
  rw [ofBits]
  split
  · rename_i few
    apply settled_array
    · exact ⟨formed.values_ascending, formed.size_values.trans_le few⟩
    · intro v
      rw [← mem v]
      exact formed.mem_values v
  · rename_i many
    refine ⟨⟨formed, ?_⟩, mem, ?_⟩
    · rintro b' same
      obtain rfl := Container.bits.inj same
      exact Nat.lt_of_not_le many
    · intro none
      have formedC : (bits b).WellFormed := formed
      have nothing : b.cardinality = 0 :=
        formedC.cardinality_eq_zero_iff.mpr fun v member => none v ((mem v).mp member)
      exact absurd (nothing ▸ Nat.zero_le _) many

theorem cardinality_ofSortedValues (values : Array UInt16)
    (sorted : values.toList.Pairwise (· < ·)) :
    (BitSet.ofSortedValues values).cardinality = values.size := by
  have formed : (bits (BitSet.ofSortedValues values)).WellFormed := BitSet.wellFormed_ofWords _
  have size := formed.cardinality_eq_length values.toList sorted fun v =>
    Array.mem_toList_iff.trans (BitSet.mem_ofSortedValues values v).symm
  rwa [Array.length_toList] at size

theorem settled_ofSortedValues (values : Array UInt16) (keep : UInt16 → Prop)
    (sorted : values.toList.Pairwise (· < ·)) (mem : ∀ v, v ∈ values ↔ keep v) :
    Settled (ofSortedValues values) keep := by
  rw [ofSortedValues]
  split
  · rename_i many
    have memBits := BitSet.mem_ofSortedValues values
    have size := cardinality_ofSortedValues values sorted
    refine ⟨⟨BitSet.wellFormed_ofWords _, ?_⟩, fun v => (memBits v).trans (mem v), ?_⟩
    · rintro b' same
      obtain rfl := Container.bits.inj same
      exact Nat.lt_of_lt_of_eq many size.symm
    · intro none
      have nothing : values = #[] :=
        Array.eq_empty_iff_forall_not_mem.mpr fun v member => none v ((mem v).mp member)
      rw [nothing] at many
      simp at many
  · rename_i few
    exact settled_array ⟨values⟩ keep ⟨sorted, Nat.le_of_not_lt few⟩ mem

/-! Conversions. -/

theorem bitsToArray_eq (b : BitSet) (formed : b.WellFormed) :
    bitsToArray b = .ok ⟨b.values⟩ := by
  have small := b.words.count_le
  rw [bitsToArray, if_pos (by rw [show b.cardinality = b.words.count from formed]; omega)]
  rfl

theorem Ordered.toArraySet_spec (ordered : c.Ordered) :
    ∃ shared, c.toArraySet = .ok ⟨⟨c.values⟩, shared⟩ := by
  cases c with
  | array s => exact ⟨true, rfl⟩
  | bits b => exact ⟨false, by rw [toArraySet, bitsToArray_eq b ordered]; rfl⟩
  | runs r => exact ⟨false, rfl⟩

theorem Ordered.toBitSet_spec (ordered : c.Ordered) :
    ∃ b shared, c.toBitSet = .ok ⟨b, shared⟩ ∧ b.WellFormed ∧ ∀ v, v ∈ b ↔ v ∈ c := by
  cases c with
  | array s =>
    exact ⟨_, false, rfl, BitSet.wellFormed_ofWords _, BitSet.mem_ofSortedValues s.values⟩
  | bits b => exact ⟨b, true, rfl, ordered, fun v => Iff.rfl⟩
  | runs r =>
    obtain ⟨b, done, formedB, mem⟩ := r.toBitSet_spec ordered
    exact ⟨b, false, by rw [toBitSet, done]; rfl, formedB, mem⟩

theorem Ordered.toRunSet_spec (ordered : c.Ordered) :
    c.toRunSet.encoded.WellFormed ∧ ∀ v, v ∈ c.toRunSet.encoded ↔ v ∈ c := by
  cases c with
  | array s => exact RunSet.ofSortedValues_spec s.values ordered
  | bits b => exact ⟨(RunSet.runs_toRunSet b).2.1, RunSet.mem_toRunSet b⟩
  | runs r => exact ⟨ordered, fun v => Iff.rfl⟩

/-- A conversion gives the encoding that is asked for, with the same members. -/
theorem Ordered.convertTo_spec (ordered : c.Ordered) (target : Kind) :
    ∃ d, c.convertTo target = .ok d ∧ d.Ordered ∧ d.kind = target ∧ ∀ v, v ∈ d ↔ v ∈ c := by
  unfold Container.convertTo
  by_cases same : c.kind = target
  · exact ⟨c, if_pos same, ordered, same, fun v => Iff.rfl⟩
  · rw [if_neg same]
    cases target with
    | array =>
      obtain ⟨shared, done⟩ := ordered.toArraySet_spec
      exact ⟨array ⟨c.values⟩, by rw [done]; rfl, ordered.values_ascending, rfl, ordered.mem_values⟩
    | bits =>
      obtain ⟨b, shared, done, formedB, mem⟩ := ordered.toBitSet_spec
      exact ⟨bits b, by rw [done]; rfl, formedB, rfl, mem⟩
    | runs =>
      obtain ⟨formedR, mem⟩ := ordered.toRunSet_spec
      exact ⟨runs c.toRunSet.encoded, rfl, formedR, rfl, mem⟩

/-- The encoding is well formed as long as a list is not asked to hold too many. -/
theorem convertTo_spec (formed : c.WellFormed) (target : Kind)
    (fits : target = .array → c.cardinality ≤ ArraySet.maxLength) :
    ∃ d, c.convertTo target = .ok d ∧ d.WellFormed ∧ d.kind = target ∧ ∀ v, v ∈ d ↔ v ∈ c := by
  obtain ⟨d, done, ordered, kind, mem⟩ := formed.ordered.convertTo_spec target
  refine ⟨d, done, ordered.wellFormed fun list => ?_, kind, mem⟩
  rw [ordered.cardinality_eq formed.ordered mem]
  exact fits (kind.symm.trans list)

theorem Canonical.convertTo {target : Kind} (canonical : c.Canonical)
    (dense : target = .bits → c.kind ≠ .bits → ArraySet.maxLength < c.cardinality)
    (formed : d.WellFormed) (kind : d.kind = target) (mem : ∀ v, v ∈ d ↔ v ∈ c) : d.Canonical := by
  refine ⟨formed, ?_⟩
  rintro b rfl
  have same := formed.ordered.cardinality_eq canonical.1.ordered mem
  have many : ArraySet.maxLength < c.cardinality := by
    cases c with
    | bits a => exact canonical.2 a rfl
    | array s => exact dense kind.symm (by simp [Container.kind])
    | runs r => exact dense kind.symm (by simp [Container.kind])
  rw [← same] at many
  exact many

/-- Dense bits in many runs would stay bits if their runs were counted to the end. -/
theorem inferOptimalKind_eq (c : Container) :
    c.inferOptimalKind = Kind.inferBySize c.cardinality c.countRuns c.kind := by
  cases c with
  | array s => rfl
  | runs r => rfl
  | bits b =>
    rw [inferOptimalKind]
    split
    · rename_i stays
      obtain ⟨dense, exceeds⟩ := stays
      have many : runLimit < b.countRuns := (b.words.countRunsExceeds_iff runLimit).mp exceeds
      exact (Kind.inferBySize_bits dense many).symm
    · rfl

theorem inferOptimalKind_eq_array (chosen : c.inferOptimalKind = .array) :
    c.cardinality ≤ ArraySet.maxLength := by
  rw [inferOptimalKind_eq] at chosen
  exact Kind.cardinality_le_of_inferBySize chosen

theorem inferOptimalKind_eq_bits (chosen : c.inferOptimalKind = .bits) (other : c.kind ≠ .bits) :
    ArraySet.maxLength < c.cardinality := by
  rw [inferOptimalKind_eq] at chosen
  exact Kind.lt_of_inferBySize_eq_bits chosen other

theorem settled_ofRuns (r : RunSet) (keep : UInt16 → Prop) (formed : r.WellFormed)
    (mem : ∀ v, v ∈ r ↔ keep v) : ∃ d, ofRuns r = .ok d ∧ Settled d keep := by
  have formedC : (runs r).WellFormed := formed
  obtain ⟨d, done, formedD, kind, memD⟩ :=
    convertTo_spec formedC _ fun chosen => inferOptimalKind_eq_array chosen
  have canonical := formedC.canonical_of_kind_ne_bits (by simp [Container.kind])
  refine ⟨d, done, canonical.convertTo ?_ formedD kind memD, fun v => (memD v).trans (mem v), ?_⟩
  · intro chosen other
    exact inferOptimalKind_eq_bits chosen other
  · intro none
    have nothing : (runs r).cardinality = 0 :=
      formedC.cardinality_eq_zero_iff.mpr fun v member => none v ((mem v).mp member)
    have list : d.kind = .array := by
      rw [kind, inferOptimalKind, nothing, Kind.inferBySize_zero]
      simp
    cases d with
    | array s => exact array_eq_empty s fun v member => none v ((mem v).mp ((memD v).mp member))
    | bits b => simp [Container.kind] at list
    | runs r => simp [Container.kind] at list

end Container

end Roaring
