import Mathlib.Data.Finset.Card
import Roaring.Container.Count
import Roaring.Proofs.Container.Algebra
import Roaring.Proofs.Container.Answers

/-! The counts agree with the results they stand for. How many values two containers share is counted
in a way of its own for each pair of encodings; the other counts follow from it by inclusion and
exclusion. -/
namespace Roaring

/-! Two lists, and two lists of runs. Counting takes the steps that the merge takes. -/

namespace ArraySet

theorem interCountOnto_eq (as bs : List UInt16) (total : Nat) (out : Array UInt16)
    (counted : out.size = total) :
    interCountOnto as bs total = (mergeOnto false true as bs out).size := by
  induction as, bs, total using interCountOnto.induct generalizing out with
  | case1 as b bs total ih =>
    rw [interCountOnto, if_pos rfl, mergeOnto, if_pos rfl, if_pos rfl]
    exact ih (out.push b) (by rw [Array.size_push, counted])
  | case2 a as b bs total other first ih =>
    rw [interCountOnto, if_neg other, if_pos first, mergeOnto, if_neg other, if_pos first,
      if_neg Bool.false_ne_true]
    exact ih out counted
  | case3 a as b bs total other notFirst ih =>
    rw [interCountOnto, if_neg other, if_neg notFirst, mergeOnto, if_neg other, if_neg notFirst,
      if_neg Bool.false_ne_true]
    exact ih out counted
  | case4 as bs total spent =>
    have stays : mergeOnto false true as bs out = out := by
      cases as with
      | nil => rw [mergeOnto, if_neg Bool.false_ne_true]
      | cons a as =>
        cases bs with
        | nil => rw [mergeOnto, if_neg Bool.false_ne_true]; simp
        | cons b bs => exact (spent a as b bs rfl rfl).elim
    rw [interCountOnto, stays, counted]
    exact spent

theorem interCount_eq (s t : ArraySet) : s.interCount t = (s.inter t).length :=
  interCountOnto_eq _ _ 0 #[] rfl

end ArraySet

namespace Run

theorem sum_count_piece (start stop : Nat) (inside : stop ≤ 65536) :
    ((piece start stop).map count).sum = stop - start := by
  rw [piece]
  split
  · rename_i nonempty
    rw [List.map_singleton, List.sum_singleton, count_ofSpan _ nonempty inside]
    rfl
  · rename_i empty
    rw [Nat.sub_eq_zero_of_le (Nat.le_of_not_lt empty)]
    rfl

theorem interCountOnto_eq (as bs : List Run) (total : Nat) (out : Array Run)
    (inside : ∀ r ∈ as, r.stop ≤ 65536) (counted : (out.toList.map count).sum = total) :
    interCountOnto as bs total = ((interOnto as bs out).toList.map count).sum := by
  induction as, bs, total using interCountOnto.induct generalizing out with
  | case1 a as b bs total _ ends ih =>
    obtain ⟨here, later⟩ := List.forall_mem_cons.mp inside
    rw [interCountOnto, if_pos ends, interOnto, if_pos ends]
    refine ih _ later ?_
    rw [toList_push_overlap, List.map_append, List.sum_append, counted,
      sum_count_piece _ _ (Nat.le_trans (Nat.min_le_left _ _) here)]
  | case2 a as b bs total _ ends ih =>
    have here := inside a List.mem_cons_self
    rw [interCountOnto, if_neg ends, interOnto, if_neg ends]
    refine ih _ inside ?_
    rw [toList_push_overlap, List.map_append, List.sum_append, counted,
      sum_count_piece _ _ (Nat.le_trans (Nat.min_le_left _ _) here)]
  | case3 as bs total spent =>
    rw [interCountOnto, interOnto, counted]
    · exact spent
    · exact spent

end Run

namespace RunSet

theorem cardinality_eq_sum (s : RunSet) : s.cardinality = (s.runs.toList.map Run.count).sum := by
  rw [cardinality, ← Array.foldl_toList, List.sum_eq_foldl, List.foldl_map]

theorem interCount_eq (s t : RunSet) (formed : s.WellFormed) :
    s.interCount t = (s.inter t).cardinality := by
  rw [cardinality_eq_sum]
  exact Run.interCountOnto_eq _ _ 0 #[] formed.2 rfl

end RunSet

/-! Runs in bits. -/

namespace BitSet

theorem countP_contains_run (b : BitSet) (r : Run) (inside : r.stop ≤ 65536) :
    b.rangeCardinality r.span = .ok (r.values.toList.countP b.contains) := by
  have length : r.span.length = r.count := by
    rw [Span.length, Run.span, r.stop_eq, Nat.add_sub_cancel_left]
  rw [rangeCardinality_eq b r.span inside, Run.toList_values r inside, List.countP_map, length]
  refine congrArg Except.ok (List.countP_congr fun n member => ?_)
  rw [Function.comp_apply, contains, r.toNat_value inside member]

theorem foldlM_rangeCardinality (b : BitSet) (runs : List Run) (n : Nat)
    (inside : ∀ r ∈ runs, r.stop ≤ 65536) :
    runs.foldlM (fun n r => return n + (← b.rangeCardinality r.span)) n =
      (.ok (n + (runs.flatMap fun r => r.values.toList).countP b.contains) : Checked Nat) := by
  induction runs generalizing n with
  | nil => rfl
  | cons r runs ih =>
    obtain ⟨here, later⟩ := List.forall_mem_cons.mp inside
    rw [List.foldlM_cons, countP_contains_run b r here, List.flatMap_cons, List.countP_append,
      ← Nat.add_assoc]
    exact ih _ later

end BitSet

namespace Container

variable {c d e : Container}

def valueSet (c : Container) : Finset UInt16 := c.values.toList.toFinset

namespace WellFormed

theorem mem_valueSet (formed : c.WellFormed) (v : UInt16) : v ∈ c.valueSet ↔ v ∈ c := by
  rw [valueSet, List.mem_toFinset, Array.mem_toList_iff, formed.mem_values]

theorem card_valueSet (formed : c.WellFormed) : c.valueSet.card = c.cardinality :=
  (formed.cardinality_eq_card fun v => (formed.mem_valueSet v).symm).symm

theorem countP_contains (formedC : c.WellFormed) (formedD : d.WellFormed) :
    c.values.toList.countP d.contains = (c.valueSet ∩ d.valueSet).card := by
  have distinct := formedC.values_ascending.imp UInt16.ne_of_lt
  have kept : (c.values.toList.filter d.contains).toFinset = c.valueSet ∩ d.valueSet := by
    ext v
    rw [List.mem_toFinset, List.mem_filter, Finset.mem_inter, formedD.contains_iff,
      formedD.mem_valueSet, valueSet, List.mem_toFinset]
  rw [List.countP_eq_length_filter, ← kept, List.toFinset_card_of_nodup (distinct.filter _)]

theorem card_inter (formedC : c.WellFormed) (formedD : d.WellFormed) (formedE : e.WellFormed)
    (shared : ∀ v, v ∈ e ↔ v ∈ c ∧ v ∈ d) : e.cardinality = (c.valueSet ∩ d.valueSet).card := by
  apply formedE.cardinality_eq_card
  intro v
  rw [shared, Finset.mem_inter, formedC.mem_valueSet, formedD.mem_valueSet]

end WellFormed

/-- A list is counted against either of the other encodings value by value. -/
theorem interCount_array (s : ArraySet) (formedS : (array s).WellFormed) (formedD : d.WellFormed) :
    (array s).interCount d = .ok ((array s).valueSet ∩ d.valueSet).card := by
  have counted := formedS.countP_contains formedD
  cases d with
  | array t =>
    obtain ⟨e, done, settled⟩ := inter_spec formedS formedD
    obtain rfl := Except.ok.inj done
    rw [← formedS.card_inter formedD settled.canonical.1 settled.mem_iff, interCount,
      ArraySet.interCount_eq]
    rfl
  | bits b => rw [← counted, Array.countP_toList]; rfl
  | runs r => rw [← counted, Array.countP_toList]; rfl

theorem interCount_bits_runs (b : BitSet) (r : RunSet) (formedB : (bits b).WellFormed)
    (formedR : (runs r).WellFormed) :
    (bits b).interCount (runs r) = .ok ((bits b).valueSet ∩ (runs r).valueSet).card := by
  have counted := formedR.countP_contains formedB
  change r.values.toList.countP b.contains = _ at counted
  rw [interCount, ← Array.foldlM_toList, BitSet.foldlM_rangeCardinality b _ 0 formedR.2,
    ← RunSet.toList_values, counted, Nat.zero_add, Finset.inter_comm]

/-- The values that two containers share are counted right, for every pair of encodings. -/
theorem interCount_eq (formedC : c.WellFormed) (formedD : d.WellFormed) :
    c.interCount d = .ok (c.valueSet ∩ d.valueSet).card := by
  cases c with
  | array s => exact interCount_array s formedC formedD
  | bits a =>
    cases d with
    | array t =>
      rw [Finset.inter_comm]
      exact interCount_array t formedD formedC
    | bits b =>
      have formed : (bits (a.inter b)).WellFormed := BitSet.wellFormed_zipWords _ a b
      rw [← formedC.card_inter formedD formed (BitSet.mem_inter a b), interCount,
        BitSet.interCount_eq]
      rfl
    | runs r => exact interCount_bits_runs a r formedC formedD
  | runs r =>
    cases d with
    | array t =>
      rw [Finset.inter_comm]
      exact interCount_array t formedD formedC
    | bits b =>
      rw [Finset.inter_comm]
      exact interCount_bits_runs b r formedD formedC
    | runs q =>
      obtain ⟨formed, covers⟩ := Run.inter_spec _ _ formedC formedD
      have formedE : (runs (r.inter q)).WellFormed := formed
      rw [← formedC.card_inter formedD formedE fun v => covers v.toNat, interCount,
        RunSet.interCount_eq r q formedC]
      rfl

/-! Relations. -/

theorem any_contains_iff (s : ArraySet) (formed : d.WellFormed) :
    s.values.any d.contains = true ↔ ∃ v, v ∈ s ∧ v ∈ d := by
  simp only [Array.any_eq_true', formed.contains_iff, ArraySet.mem_def]

theorem intersects_spec (formedC : c.WellFormed) (formedD : d.WellFormed) :
    ∃ met, c.intersects d = .ok met ∧ (met = true ↔ ∃ v, v ∈ c ∧ v ∈ d) := by
  cases bounds : c.apart d with
  | true =>
    refine ⟨false, by rw [intersects.eq_def, if_pos bounds], ?_⟩
    refine iff_of_false Bool.false_ne_true fun ⟨v, inC, inD⟩ => ?_
    exact not_mem_of_apart formedC formedD bounds v inC inD
  | false =>
    rw [intersects.eq_def, bounds, if_neg Bool.false_ne_true]
    split
    · rename_i s
      exact ⟨_, rfl, any_contains_iff s formedD⟩
    · rename_i t _
      refine ⟨_, rfl, (any_contains_iff t formedC).trans ?_⟩
      exact exists_congr fun v => and_comm
    · rename_i a b
      refine ⟨_, rfl, (BitSet.meets_iff a b).trans ?_⟩
      exact exists_congr fun v => BitSet.mem_inter a b v
    · rw [interCount_eq formedC formedD]
      refine ⟨_, rfl, ?_⟩
      rw [bne_iff_ne, Finset.card_ne_zero]
      refine exists_congr fun v => ?_
      rw [Finset.mem_inter, formedC.mem_valueSet, formedD.mem_valueSet]

theorem isSubset_spec (formedC : c.WellFormed) (formedD : d.WellFormed) :
    ∃ within, c.isSubset d = .ok within ∧ (within = true ↔ ∀ v, v ∈ c → v ∈ d) := by
  have subset : c.valueSet ⊆ d.valueSet ↔ ∀ v, v ∈ c → v ∈ d := by
    simp only [Finset.subset_iff, formedC.mem_valueSet, formedD.mem_valueSet]
  rw [isSubset, ← formedC.card_valueSet, ← formedD.card_valueSet, ← subset]
  split
  · rw [interCount_eq formedC formedD]
    refine ⟨_, rfl, ?_⟩
    rw [beq_iff_eq, ← Finset.inter_eq_left]
    constructor
    · intro same
      exact Finset.eq_of_subset_of_card_le Finset.inter_subset_left same.ge
    · exact congrArg Finset.card
  · rename_i larger
    exact ⟨false, rfl, iff_of_false Bool.false_ne_true fun within =>
      larger (Finset.card_le_card within)⟩

end Container

/-! All counts and relations. -/

namespace SetOp

def countContainers : SetOp → Container → Container → Checked Nat
  | inter => Container.interCount
  | union => Container.unionCount
  | symmDiff => Container.symmDiffCount
  | diff => Container.diffCount

/-- The size of the outcome from the sizes of the operands and of what they share. -/
def countFrom (m n shared : Nat) : SetOp → Nat
  | inter => shared
  | union => m + n - shared
  | symmDiff => m + n - 2 * shared
  | diff => m - shared

/-- Inclusion and exclusion. -/
theorem card_eq_countFrom {α : Type} [DecidableEq α] (op : SetOp) {A B E : Finset α}
    (keeps : ∀ x, x ∈ E ↔ op.Keeps (x ∈ A) (x ∈ B)) :
    E.card = op.countFrom A.card B.card (A ∩ B).card := by
  have left := Finset.card_sdiff_add_card_inter A B
  have right := Finset.card_sdiff_add_card_inter B A
  rw [Finset.inter_comm B A] at right
  cases op with
  | inter =>
    have same : E = A ∩ B := by
      ext x
      rw [keeps, Finset.mem_inter, Keeps]
    rw [same, countFrom]
  | union =>
    have same : E = A ∪ B := by
      ext x
      rw [keeps, Finset.mem_union, Keeps]
    rw [same, countFrom, Finset.card_union]
  | symmDiff =>
    have same : E = A \ B ∪ B \ A := by
      ext x
      rw [keeps, Finset.mem_union, Finset.mem_sdiff, Finset.mem_sdiff, Keeps]
      tauto
    have apart : Disjoint (A \ B) (B \ A) := Finset.disjoint_of_subset_right
      Finset.sdiff_subset Finset.sdiff_disjoint
    rw [same, countFrom, Finset.card_union_of_disjoint apart]
    omega
  | diff =>
    have same : E = A \ B := by
      ext x
      rw [keeps, Finset.mem_sdiff, Keeps]
    rw [same, countFrom]
    omega

theorem card_inter_remains {α : Type} [DecidableEq α] (A B : Finset α) :
    (A ∩ B).card ≤ A.card + B.card ∧ 2 * (A ∩ B).card ≤ A.card + B.card ∧
      (A ∩ B).card ≤ A.card := by
  have left : (A ∩ B).card ≤ A.card := Finset.card_le_card Finset.inter_subset_left
  have right : (A ∩ B).card ≤ B.card := Finset.card_le_card Finset.inter_subset_right
  omega

theorem countContainers_eq (op : SetOp) (c d : Container) :
    op.countContainers c d =
      (return op.countFrom c.cardinality d.cardinality (← c.interCount d) : Checked Nat) := by
  cases op with
  | inter => exact (bind_pure _).symm
  | union => rfl
  | symmDiff => rfl
  | diff => rfl

end SetOp

namespace Container

/-- The counts and relations of two containers are those of the results of the set algebra, and no
subtraction in them goes below zero. -/
structure Counted (c d : Container) : Prop where
  counts : ∀ op : SetOp, ∃ e, op.onContainers c d = .ok e ∧
    op.countContainers c d = .ok e.cardinality
  intersects : ∃ e, c.inter d = .ok e ∧ c.intersects d = .ok (!e.isEmpty)
  isSubset : ∃ e, c.diff d = .ok e ∧ c.isSubset d = .ok e.isEmpty
  remains : ∃ n, c.interCount d = .ok n ∧ n ≤ c.cardinality + d.cardinality ∧
    2 * n ≤ c.cardinality + d.cardinality ∧ n ≤ c.cardinality

variable {c d : Container}

theorem counted (formedC : c.WellFormed) (formedD : d.WellFormed) : c.Counted d := by
  have shared := interCount_eq formedC formedD
  constructor
  case counts =>
    intro op
    obtain ⟨e, done, formedE, keeps, -⟩ := operation_spec op formedC formedD
    refine ⟨e, done, ?_⟩
    have count : e.valueSet.card =
        op.countFrom c.valueSet.card d.valueSet.card (c.valueSet ∩ d.valueSet).card :=
      op.card_eq_countFrom fun v => by
        rw [formedE.mem_valueSet, keeps, formedC.mem_valueSet, formedD.mem_valueSet]
    rw [op.countContainers_eq, shared, ← formedE.card_valueSet, count, formedC.card_valueSet,
      formedD.card_valueSet]
    rfl
  case intersects =>
    obtain ⟨e, done, formedE, keeps, -⟩ := operation_spec .inter formedC formedD
    obtain ⟨met, answered, meaning⟩ := intersects_spec formedC formedD
    refine ⟨e, done, answered.trans (congrArg Except.ok (Bool.eq_iff_iff.mpr ?_))⟩
    rw [meaning, Bool.not_eq_true', ← Bool.not_eq_true, formedE.isEmpty_iff, not_forall]
    refine exists_congr fun v => ?_
    rw [not_not, keeps]
    rfl
  case isSubset =>
    obtain ⟨e, done, formedE, keeps, -⟩ := operation_spec .diff formedC formedD
    obtain ⟨within, answered, meaning⟩ := isSubset_spec formedC formedD
    refine ⟨e, done, answered.trans (congrArg Except.ok (Bool.eq_iff_iff.mpr ?_))⟩
    rw [meaning, formedE.isEmpty_iff]
    refine forall_congr' fun v => ?_
    rw [keeps, SetOp.Keeps, not_and, not_not]
  case remains =>
    have remains := SetOp.card_inter_remains c.valueSet d.valueSet
    rw [formedC.card_valueSet, formedD.card_valueSet] at remains
    exact ⟨_, shared, remains⟩

end Container

end Roaring
