import Roaring.Container.Algebra
import Roaring.Proofs.RunSet.Basic
import Roaring.Proofs.ArraySet.Algebra

/-! The values of a container. Membership is read off the encoding; the list of values is ascending,
has as many members as the cardinality says, and holds what membership says. -/
namespace Roaring

namespace ArraySet

instance : Membership UInt16 ArraySet := ⟨fun s v => v ∈ s.values⟩

theorem mem_def (s : ArraySet) (v : UInt16) : v ∈ s ↔ v ∈ s.values := Iff.rfl

theorem wellFormed_empty : empty.WellFormed := ⟨List.Pairwise.nil, Nat.zero_le _⟩

end ArraySet

namespace Container

def Holds : Container → UInt16 → Prop
  | .array s, v => v ∈ s
  | .bits b, v => v ∈ b
  | .runs r, v => v ∈ r

instance : Membership UInt16 Container := ⟨Holds⟩

@[simp] theorem mem_array (s : ArraySet) (v : UInt16) : v ∈ array s ↔ v ∈ s := Iff.rfl

@[simp] theorem mem_bits (b : BitSet) (v : UInt16) : v ∈ bits b ↔ v ∈ b := Iff.rfl

@[simp] theorem mem_runs (r : RunSet) (v : UInt16) : v ∈ runs r ↔ v ∈ r := Iff.rfl

@[simp] theorem not_mem_empty (v : UInt16) : v ∉ empty := by
  intro member
  have inside : v ∈ (#[] : Array UInt16) := member
  simp at inside

theorem mem_full (v : UInt16) : v ∈ full := RunSet.mem_full v

theorem wellFormed_empty : empty.WellFormed := ArraySet.wellFormed_empty

theorem wellFormed_full : full.WellFormed := RunSet.wellFormed_full

variable {c d : Container}

/-- Well formed, save that a list may be too long: bits and runs are turned into a list whatever their
number of values. -/
def Ordered : Container → Prop
  | .array s => s.values.toList.Pairwise (· < ·)
  | .bits b => b.WellFormed
  | .runs r => r.WellFormed

theorem WellFormed.ordered (formed : c.WellFormed) : c.Ordered := by
  cases c with
  | array s => exact formed.ascending
  | bits b => exact formed
  | runs r => exact formed

theorem Ordered.wellFormed (ordered : c.Ordered)
    (short : c.kind = .array → c.cardinality ≤ ArraySet.maxLength) : c.WellFormed := by
  cases c with
  | array s => exact ⟨ordered, short rfl⟩
  | bits b => exact ordered
  | runs r => exact ordered

theorem Ordered.mem_values (ordered : c.Ordered) (v : UInt16) : v ∈ c.values ↔ v ∈ c := by
  cases c with
  | array s => exact Iff.rfl
  | bits b => exact BitSet.WellFormed.mem_values ordered v
  | runs r => exact RunSet.WellFormed.mem_values ordered v

theorem Ordered.values_ascending (ordered : c.Ordered) : c.values.toList.Pairwise (· < ·) := by
  cases c with
  | array s => exact ordered
  | bits b => exact BitSet.WellFormed.values_ascending ordered
  | runs r => exact RunSet.WellFormed.values_ascending ordered

theorem Ordered.size_values (ordered : c.Ordered) : c.values.size = c.cardinality := by
  cases c with
  | array s => rfl
  | bits b => exact BitSet.WellFormed.size_values ordered
  | runs r => exact RunSet.WellFormed.size_values ordered

theorem WellFormed.mem_values (formed : c.WellFormed) (v : UInt16) : v ∈ c.values ↔ v ∈ c :=
  formed.ordered.mem_values v

theorem WellFormed.values_ascending (formed : c.WellFormed) :
    c.values.toList.Pairwise (· < ·) :=
  formed.ordered.values_ascending

theorem WellFormed.size_values (formed : c.WellFormed) : c.values.size = c.cardinality :=
  formed.ordered.size_values

theorem WellFormed.cardinality_eq_zero_iff (formed : c.WellFormed) :
    c.cardinality = 0 ↔ ∀ v, v ∉ c := by
  rw [← formed.size_values, Array.size_eq_zero_iff, Array.eq_empty_iff_forall_not_mem]
  simp only [formed.mem_values]

theorem WellFormed.isEmpty_iff (formed : c.WellFormed) : c.isEmpty = true ↔ ∀ v, v ∉ c := by
  cases c with
  | array s =>
    rw [← formed.cardinality_eq_zero_iff]
    simp [isEmpty, ArraySet.isEmpty, cardinality, ArraySet.length]
  | bits b =>
    rw [← formed.cardinality_eq_zero_iff]
    change b.isEmpty = true ↔ b.cardinality = 0
    rw [BitSet.WellFormed.isEmpty_iff formed, show b.cardinality = b.words.count from formed]
  | runs r =>
    change r.isEmpty = true ↔ ∀ v, v ∉ r
    rw [RunSet.isEmpty_iff, ← Array.toList_eq_nil_iff]
    constructor
    · intro none v member
      rw [RunSet.mem_def, none] at member
      exact (Run.covers_nil _).mp member
    · intro none
      apply List.eq_nil_iff_forall_not_mem.mpr
      exact fun a member => none a.start (Run.covers_start member)

theorem WellFormed.cardinality_pos (formed : c.WellFormed) (some : c.isEmpty = false) :
    0 < c.cardinality := by
  refine Nat.pos_of_ne_zero fun zero => ?_
  rw [formed.isEmpty_iff.mpr (formed.cardinality_eq_zero_iff.mp zero)] at some
  contradiction

theorem array_eq_empty (s : ArraySet) (none : ∀ v, v ∉ s) : array s = empty := by
  have values : s.values = #[] := Array.eq_empty_iff_forall_not_mem.mpr none
  rw [empty, ArraySet.empty, ← values]

/-! The bounds. -/

theorem head?_of_least (values : List UInt16) (sorted : values.Pairwise (· < ·)) (m : UInt16)
    (member : m ∈ values) (least : ∀ v ∈ values, m ≤ v) : values.head? = some m := by
  cases values with
  | nil => simp at member
  | cons a rest =>
    rcases List.mem_cons.mp member with rfl | later
    · rfl
    · have below := (List.pairwise_cons.mp sorted).1 m later
      have above := least a List.mem_cons_self
      rw [UInt16.lt_iff_toNat_lt] at below
      rw [UInt16.le_iff_toNat_le] at above
      omega

theorem getLast?_of_greatest (values : List UInt16) (sorted : values.Pairwise (· < ·)) (m : UInt16)
    (member : m ∈ values) (greatest : ∀ v ∈ values, v ≤ m) : values.getLast? = some m := by
  obtain ⟨before, after, rfl⟩ := List.append_of_mem member
  cases after with
  | nil => simp
  | cons a rest =>
    have tail := (List.pairwise_append.mp sorted).2.1
    have above := (List.pairwise_cons.mp tail).1 a List.mem_cons_self
    have below := greatest a (by simp)
    rw [UInt16.lt_iff_toNat_lt] at above
    rw [UInt16.le_iff_toNat_le] at below
    omega

theorem WellFormed.min?_eq (formed : c.WellFormed) : c.min? = c.values.toList.head? := by
  cases c with
  | array s => rw [min?, ArraySet.min?, values, List.head?_eq_getElem?, Array.getElem?_toList]
  | bits b =>
    have scan := b.words.firstSetIn_spec 1024 0
    rw [min?, BitSet.min?]
    cases found : b.words.firstSetIn 1024 0 with
    | some p =>
      rw [found] at scan
      obtain ⟨-, inside, set, before⟩ := scan
      have value : p.toUInt16.toNat = p := by simpa using inside
      symm
      apply head?_of_least _ formed.values_ascending
      · rw [Array.mem_toList_iff, formed.mem_values, mem_bits, BitSet.mem_def, value]
        exact set
      · intro v member
        rw [Array.mem_toList_iff, formed.mem_values, mem_bits, BitSet.mem_def] at member
        rw [UInt16.le_iff_toNat_le, value]
        by_contra below
        rw [before _ (Nat.zero_le _) (by omega)] at member
        contradiction
    | none =>
      rw [found] at scan
      have none : (bits b).values = #[] := by
        rw [Array.eq_empty_iff_forall_not_mem]
        intro v member
        rw [formed.mem_values, mem_bits, BitSet.mem_def, scan _ (Nat.zero_le _) v.toNat_lt] at member
        contradiction
      rw [none]
      rfl
  | runs r =>
    change r.runs[0]?.map Run.start = r.values.toList.head?
    rw [RunSet.toList_values, ← Array.getElem?_toList]
    have canonical : Run.Canonical r.runs.toList := formed
    cases runs : r.runs.toList with
    | nil => rfl
    | cons a rest =>
      rw [runs] at canonical
      rw [List.flatMap_cons, Run.toList_values a canonical.stop_le, Run.count, List.range'_succ]
      simp

theorem WellFormed.max?_eq (formed : c.WellFormed) : c.max? = c.values.toList.getLast? := by
  cases c with
  | array s => rw [max?, ArraySet.max?, values, Array.getLast?_toList]
  | bits b =>
    have scan := b.words.lastSetIn_spec 1024
    rw [max?, BitSet.max?]
    cases found : b.words.lastSetIn 1024 with
    | some p =>
      rw [found] at scan
      obtain ⟨inside, set, after⟩ := scan
      have value : p.toUInt16.toNat = p := by simpa using inside
      symm
      apply getLast?_of_greatest _ formed.values_ascending
      · rw [Array.mem_toList_iff, formed.mem_values, mem_bits, BitSet.mem_def, value]
        exact set
      · intro v member
        rw [Array.mem_toList_iff, formed.mem_values, mem_bits, BitSet.mem_def] at member
        rw [UInt16.le_iff_toNat_le, value]
        by_contra above
        rw [after _ (by omega) v.toNat_lt] at member
        contradiction
    | none =>
      rw [found] at scan
      have none : (bits b).values = #[] := by
        rw [Array.eq_empty_iff_forall_not_mem]
        intro v member
        rw [formed.mem_values, mem_bits, BitSet.mem_def, scan _ v.toNat_lt] at member
        contradiction
      rw [none]
      rfl
  | runs r =>
    change r.runs.back?.map Run.last = r.values.toList.getLast?
    rw [RunSet.toList_values, ← Array.getLast?_toList]
    have canonical : Run.Canonical r.runs.toList := formed
    rcases List.eq_nil_or_concat r.runs.toList with nil | ⟨before, a, parts⟩
    · rw [nil]
      rfl
    · rw [List.concat_eq_append] at parts
      rw [parts] at canonical ⊢
      have inside : a.stop ≤ 65536 := canonical.2 a (by simp)
      rw [List.flatMap_append, List.flatMap_singleton, Run.toList_values a inside, Run.count,
        List.range'_concat]
      simp [Run.last]

theorem WellFormed.min?_le (formed : c.WellFormed) (m : UInt16) (found : c.min? = some m)
    (v : UInt16) (member : v ∈ c) : m ≤ v := by
  rw [formed.min?_eq] at found
  rw [← formed.mem_values, ← Array.mem_toList_iff] at member
  obtain ⟨rest, parts⟩ := List.head?_eq_some_iff.mp found
  have sorted := formed.values_ascending
  rw [parts] at sorted member
  rcases List.mem_cons.mp member with rfl | later
  · exact UInt16.le_refl v
  · exact UInt16.le_of_lt ((List.pairwise_cons.mp sorted).1 v later)

theorem WellFormed.le_max? (formed : c.WellFormed) (m : UInt16) (found : c.max? = some m)
    (v : UInt16) (member : v ∈ c) : v ≤ m := by
  rw [formed.max?_eq] at found
  rw [← formed.mem_values, ← Array.mem_toList_iff] at member
  obtain ⟨before, parts⟩ := List.getLast?_eq_some_iff.mp found
  have sorted := formed.values_ascending
  rw [parts] at sorted member
  rcases List.mem_append.mp member with earlier | last
  · exact UInt16.le_of_lt ((List.pairwise_append.mp sorted).2.2 v earlier m (by simp))
  · rw [List.mem_singleton.mp last]
    exact UInt16.le_refl m

theorem WellFormed.min?_eq_none (formed : c.WellFormed) : c.min? = none ↔ ∀ v, v ∉ c := by
  rw [formed.min?_eq, List.head?_eq_none_iff, Array.toList_eq_nil_iff,
    Array.eq_empty_iff_forall_not_mem]
  simp only [formed.mem_values]

theorem WellFormed.max?_eq_none (formed : c.WellFormed) : c.max? = none ↔ ∀ v, v ∉ c := by
  rw [formed.max?_eq, List.getLast?_eq_none_iff, Array.toList_eq_nil_iff,
    Array.eq_empty_iff_forall_not_mem]
  simp only [formed.mem_values]

/-- Containers that their bounds keep apart share no value. -/
theorem not_mem_of_apart (formedC : c.WellFormed) (formedD : d.WellFormed)
    (disjoint : c.apart d = true) (v : UInt16) (inC : v ∈ c) : v ∉ d := by
  intro inD
  rw [apart] at disjoint
  split at disjoint
  · rename_i low high otherLow otherHigh foundLow foundHigh foundOtherLow foundOtherHigh
    have lowC := formedC.min?_le low foundLow v inC
    have highC := formedC.le_max? high foundHigh v inC
    have lowD := formedD.min?_le otherLow foundOtherLow v inD
    have highD := formedD.le_max? otherHigh foundOtherHigh v inD
    simp only [Bool.or_eq_true, decide_eq_true_eq, UInt16.lt_iff_toNat_lt,
      UInt16.le_iff_toNat_le] at *
    omega
  · rename_i some_missing
    cases foundLow : c.min? with
    | none => exact formedC.min?_eq_none.mp foundLow v inC
    | some low =>
      cases foundHigh : c.max? with
      | none => exact formedC.max?_eq_none.mp foundHigh v inC
      | some high =>
        cases foundOtherLow : d.min? with
        | none => exact formedD.min?_eq_none.mp foundOtherLow v inD
        | some otherLow =>
          cases foundOtherHigh : d.max? with
          | none => exact formedD.max?_eq_none.mp foundOtherHigh v inD
          | some otherHigh =>
            exact some_missing low high otherLow otherHigh foundLow foundHigh foundOtherLow
              foundOtherHigh

end Container

end Roaring
