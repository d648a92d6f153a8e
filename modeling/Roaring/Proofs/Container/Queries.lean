import Mathlib.Data.Finset.Sort
import Mathlib.Data.Set.Card
import Roaring.Container.Cursor
import Roaring.Proofs.Container.CountRuns
import Roaring.Proofs.Container.Update
import Roaring.Proofs.Cursor

/-! Every query of a container is answered from its values alone. For each encoding a query is first
shown to be one about the list of values: how many of them pass a test, which one stands at an index,
what comes off its ends. The list is the sorted list of the set that the container holds, and so the
encoding leaves no trace in the answers. -/
namespace Roaring

theorem length_eq_iff_of_subset {α : Type} {xs ys : List α} (distinct : xs.Nodup)
    (distinct' : ys.Nodup) (among : xs ⊆ ys) : xs.length = ys.length ↔ ys ⊆ xs := by
  constructor
  · intro same
    exact ((distinct.subperm among).perm_of_length_le (Nat.le_of_eq same.symm)).symm.subset
  · intro back
    exact Nat.le_antisymm (distinct.subperm among).length_le (distinct'.subperm back).length_le

/-- Counting along a list without repetitions is counting a set. -/
theorem countP_eq_ncard {α : Type} {values : List α} (distinct : values.Nodup) (p : α → Bool) :
    values.countP p = {v | v ∈ values ∧ p v = true}.ncard := by
  classical
  have kept : {v | v ∈ values ∧ p v = true} = ((values.filter p).toFinset : Set α) := by
    ext v
    simp
  rw [kept, Set.ncard_coe_finset, List.toFinset_card_of_nodup (distinct.filter p),
    List.countP_eq_length_filter]

/-! Lists. -/

namespace ArraySet

theorem rank_eq (s : ArraySet) (v : UInt16) (sorted : s.Ascending) :
    s.rank v = s.values.toList.countP (· ≤ v) := by
  have falling : Search.Falling (fun x : UInt16 => decide (x ≤ v)) s.values.toList := by
    apply sorted.imp
    intro a b less passes
    rw [decide_eq_true_eq] at passes ⊢
    exact UInt16.le_of_lt (UInt16.lt_of_lt_of_le less passes)
  have parts := Search.parts_partitionPoint s.values _ falling
  rw [rank, List.countP_eq_length_filter, ← parts.take_eq_filter, List.length_take,
    Nat.min_eq_left parts.inside]

theorem containsRange_iff (s : ArraySet) (range : Span) (sorted : s.Ascending)
    (inside : range.stop ≤ 65536) :
    s.containsRange range = true ↔ ∀ v : UInt16, v.toNat ∈ range → v ∈ s := by
  rw [containsRange, Bool.or_eq_true]
  rcases Nat.lt_or_ge range.start range.stop with forwards | backwards
  · have some : range.isEmpty = false := by simpa [Span.isEmpty] using forwards
    obtain ⟨front, middle, back, parts, lo, hi, before, between, behind⟩ :=
      s.bounds_spec range sorted (Nat.le_of_lt forwards)
    have whole := ascending_range range.start range.length (by rw [Span.length]; omega)
    have length : (((List.range' range.start range.length).map Nat.toUInt16)).length =
        range.length := by
      rw [List.length_map, List.length_range']
    have held (v : UInt16) (member : v.toNat ∈ range) : v ∈ s ↔ v ∈ middle := by
      have notFront : v ∉ front := fun early => by
        have := before v early
        rw [Span.mem_def] at member
        omega
      have notBack : v ∉ back := fun late => by
        have := behind v late
        rw [Span.mem_def] at member
        omega
      rw [mem_def, ← Array.mem_toList_iff, parts, List.mem_append, List.mem_append,
        or_iff_left notBack, or_iff_right notFront]
    rw [Ascending, parts] at sorted
    have ascending := (List.pairwise_append.mp (List.pairwise_append.mp sorted).1).2.1
    have among : middle ⊆ (List.range' range.start range.length).map Nat.toUInt16 :=
      fun v member => (mem_range range inside v).mpr (between v member)
    rw [some, or_iff_right Bool.false_ne_true, beq_iff_eq, ← hi, Nat.add_sub_cancel_left, ← length,
      length_eq_iff_of_subset (ascending.imp UInt16.ne_of_lt) (whole.imp UInt16.ne_of_lt) among]
    constructor
    · intro all v member
      exact (held v member).mpr (all ((mem_range range inside v).mpr member))
    · intro all v member
      have member := (mem_range range inside v).mp member
      exact (held v member).mp (all v member)
  · have none : range.isEmpty = true := by simpa [Span.isEmpty] using backwards
    exact iff_of_true (Or.inl none) fun v member =>
      absurd member ((Span.isEmpty_iff range).mp none v.toNat)

end ArraySet

/-! Runs. -/

namespace RunSet

theorem countP_run (r : Run) (v : UInt16) (inside : r.stop ≤ 65536) (low : r.start ≤ v)
    (high : v.toNat < r.stop) :
    r.values.toList.countP (· ≤ v) = v.toNat + 1 - r.start.toNat := by
  have low := UInt16.le_iff_toNat_le.mp low
  rw [r.stop_eq] at high
  have window := countP_range'_window (fun _ => true) r.start.toNat r.count r.start.toNat
    (v.toNat + 1) (Nat.le_refl _) (Nat.le_succ_of_le low) high
  rw [Run.toList_values r inside, List.countP_map]
  refine Eq.trans (List.countP_congr fun n member => ?_) (window.trans (by simp))
  have bounds := List.mem_range'_1.mp member
  simp [UInt16.le_iff_toNat_le, r.toNat_value inside member, bounds.1]

theorem rankOnto_eq (v : UInt16) (runs : List Run) (n : Nat) (canonical : Run.Canonical runs) :
    rankOnto v runs n = n + (runs.flatMap fun r => r.values.toList).countP (· ≤ v) := by
  induction runs generalizing n with
  | nil => rfl
  | cons r runs ih =>
    have inside := canonical.stop_le
    have last := Run.toNat_last r inside
    have nonempty := r.start_lt_stop
    -- the values of later runs are past the end of this one
    have later (past : v.toNat < r.stop) :
        (runs.flatMap fun r => r.values.toList).countP (· ≤ v) = 0 := by
      rw [List.countP_eq_zero]
      intro u member
      have gap := canonical.stop_lt _ ((Run.covers_value_iff runs canonical.tail.2 u).mp member)
      rw [decide_eq_true_eq, UInt16.le_iff_toNat_le]
      omega
    rw [rankOnto, List.flatMap_cons, List.countP_append]
    split
    · rename_i before
      have before := UInt16.lt_iff_toNat_lt.mp before
      have none : r.values.toList.countP (· ≤ v) = 0 := by
        rw [List.countP_eq_zero]
        intro u member
        have low := ((Run.mem_values r inside u).mp member).1
        rw [decide_eq_true_eq, UInt16.le_iff_toNat_le]
        omega
      rw [none, later (by omega)]
      rfl
    · rename_i started
      split
      · rename_i passed
        have passed := UInt16.le_iff_toNat_le.mp passed
        have all : r.values.toList.countP (· ≤ v) = r.count := by
          rw [← r.length_values inside, List.countP_eq_length]
          intro u member
          have high := ((Run.mem_values r inside u).mp member).2
          rw [decide_eq_true_eq, UInt16.le_iff_toNat_le]
          omega
        rw [ih _ canonical.tail, all, Nat.add_assoc]
      · rename_i within
        have within := UInt16.lt_iff_toNat_lt.mp (UInt16.not_le.mp within)
        have started := UInt16.not_lt.mp started
        have low := UInt16.le_iff_toNat_le.mp started
        rw [countP_run r v inside started (by omega), later (by omega),
          UInt16.toNat_sub_of_le _ _ started]
        omega

theorem selectFrom_eq (runs : List Run) (n : Nat) (inside : ∀ r ∈ runs, r.stop ≤ 65536) :
    selectFrom runs n = (runs.flatMap fun r => r.values.toList)[n]? := by
  induction runs generalizing n with
  | nil => rfl
  | cons r runs ih =>
    obtain ⟨here, later⟩ := List.forall_mem_cons.mp inside
    have length := r.length_values here
    rw [selectFrom, List.flatMap_cons, List.getElem?_append, length]
    split
    · rename_i first
      rw [Run.toList_values r here, List.getElem?_map, List.getElem?_range' first, Nat.one_mul]
      simp
    · exact ih _ later

/-- A range is held when the run that holds its first value holds all of it: the value behind a run
is missing. -/
theorem containsRange_iff (s : RunSet) (range : Span) (formed : s.WellFormed)
    (inside : range.stop ≤ 65536) :
    s.containsRange range = true ↔ ∀ v : UInt16, v.toNat ∈ range → v ∈ s := by
  rw [containsRange, Bool.or_eq_true]
  rcases Nat.lt_or_ge range.start range.stop with forwards | backwards
  · have some : range.isEmpty = false := by simpa [Span.isEmpty] using forwards
    have value : range.start.toUInt16.toNat = range.start :=
      toNat_toUInt16 (Nat.lt_of_lt_of_le forwards inside)
    obtain ⟨front, back, parts, index, before, behind⟩ := s.find_spec range.start.toUInt16 formed
    have first := mem_iff_first formed parts before behind
    rw [some, or_iff_right Bool.false_ne_true, head?_of_parts parts index]
    rw [WellFormed, parts] at formed
    cases back with
    | nil =>
      refine iff_of_false Bool.false_ne_true fun all => ?_
      exact Bool.false_ne_true (first.mp (all _ (by rw [value, Span.mem_def]; omega)))
    | cons r rest =>
      have past := behind r List.mem_cons_self
      simp only [List.head?_cons, Option.any_some, Bool.and_eq_true, decide_eq_true_eq,
        UInt16.le_iff_toNat_le, value] at first past ⊢
      constructor
      · intro both v member
        rw [Span.mem_def] at member
        rw [mem_def, parts]
        exact ⟨r, by simp, by omega, by omega⟩
      · intro all
        refine ⟨first.mp (all _ (by rw [value, Span.mem_def]; omega)), ?_⟩
        by_contra short
        have last : r.stop.toUInt16.toNat = r.stop := toNat_toUInt16 (by omega)
        have held := all r.stop.toUInt16 (by rw [last, Span.mem_def]; omega)
        rw [mem_def, parts, last, Run.covers_append, Run.covers_cons] at held
        rcases held with early | here | late
        · obtain ⟨q, member, -, high⟩ := early
          have low := before q member
          omega
        · omega
        · exact Nat.lt_irrefl _ (formed.right.stop_lt _ late)
  · have none : range.isEmpty = true := by simpa [Span.isEmpty] using backwards
    exact iff_of_true (Or.inl none) fun v member =>
      absurd member ((Span.isEmpty_iff range).mp none v.toNat)

end RunSet

/-! Bits. -/

namespace BitSet

theorem toList_values {b : BitSet} (formed : b.WellFormed) :
    b.values.toList = ((List.range 65536).filter b.words.test).map Nat.toUInt16 := by
  rw [formed.values_eq, Words.toList_positions]

theorem rank_eq (b : BitSet) (v : UInt16) (formed : b.WellFormed) :
    b.rank v = b.values.toList.countP (· ≤ v) := by
  have low := v.toNat_lt
  have window := countP_range'_window b.words.test 0 65536 0 (v.toNat + 1) (Nat.le_refl 0)
    (Nat.zero_le _) (by omega)
  rw [rank, Words.rank_eq, toList_values formed, List.countP_map, List.countP_filter,
    List.range_eq_range', List.range_eq_range']
  refine window.symm.trans (List.countP_congr fun n member => ?_)
  have bound := (List.mem_range'_1.mp member).2
  have value : n.toUInt16.toNat = n := toNat_toUInt16 (by omega)
  simp [UInt16.le_iff_toNat_le, value, and_comm]

theorem select_eq (b : BitSet) (n : Nat) (formed : b.WellFormed) :
    b.select n = b.values.toList[n]? := by
  rw [select, Words.select_eq, toList_values formed, List.getElem?_map]

theorem containsRange_spec (b : BitSet) (range : Span) (inside : range.stop ≤ 65536) :
    ∃ held, b.containsRange range = .ok held ∧
      (held = true ↔ ∀ v : UInt16, v.toNat ∈ range → v ∈ b) := by
  rw [containsRange, rangeCardinality_eq b range inside]
  refine ⟨_, rfl, ?_⟩
  have all := List.countP_eq_length (p := b.words.test) (l := List.range' range.start range.length)
  rw [List.length_range'] at all
  rw [beq_iff_eq, all]
  constructor
  · intro all v member
    rw [Span.mem_def] at member
    exact all v.toNat (List.mem_range'_1.mpr (by rw [Span.length]; omega))
  · intro all n member
    have bounds := List.mem_range'_1.mp member
    rw [Span.length] at bounds
    have value : n.toUInt16.toNat = n := toNat_toUInt16 (by omega)
    have held := all n.toUInt16 (by rw [value, Span.mem_def]; omega)
    rwa [mem_def, value] at held

end BitSet

/-! Containers. -/

namespace Container

variable {c : Container}

namespace WellFormed

theorem contains_iff (formed : c.WellFormed) (v : UInt16) : c.contains v = true ↔ v ∈ c := by
  cases c with
  | array s => exact s.contains_iff v formed.ascending
  | bits b => exact b.contains_iff v
  | runs r => exact r.contains_iff v formed

theorem rank_eq (formed : c.WellFormed) (v : UInt16) :
    c.rank v = c.values.toList.countP (· ≤ v) := by
  cases c with
  | array s => exact s.rank_eq v formed.ascending
  | bits b => exact b.rank_eq v formed
  | runs r =>
    change r.rank v = r.values.toList.countP (· ≤ v)
    rw [RunSet.rank, RunSet.rankOnto_eq v _ 0 formed, RunSet.toList_values, Nat.zero_add]

theorem select_eq (formed : c.WellFormed) (n : Nat) : c.select n = c.values.toList[n]? := by
  cases c with
  | array s => exact Array.getElem?_toList.symm
  | bits b => exact b.select_eq n formed
  | runs r =>
    change r.select n = r.values.toList[n]?
    rw [RunSet.select, RunSet.selectFrom_eq _ n formed.2, RunSet.toList_values]

theorem containsRange_spec (formed : c.WellFormed) (range : Span) (inside : range.stop ≤ 65536) :
    ∃ held, c.containsRange range = .ok held ∧
      (held = true ↔ ∀ v : UInt16, v.toNat ∈ range → v ∈ c) := by
  cases c with
  | array s => exact ⟨_, rfl, s.containsRange_iff range formed.ascending inside⟩
  | bits b => exact b.containsRange_spec range inside
  | runs r => exact ⟨_, rfl, r.containsRange_iff range formed inside⟩

theorem valuesDescending_eq (formed : c.WellFormed) :
    c.valuesDescending.toList = c.values.toList.reverse := by
  cases c with
  | array s => exact Array.toList_reverse
  | bits b =>
    have size := b.words.size_positions
    have count : b.cardinality = b.words.count := formed
    change (b.words.positions.reverse.take b.cardinality).toList = b.values.toList.reverse
    rw [BitSet.WellFormed.values_eq formed, count, ← size]
    simp
  | runs r => exact Array.toList_reverse

end WellFormed

namespace Cursor

instance : DoubleEnded (Flattened Run RunCursor) UInt16 := Flattened.steps RunCursor.ofRun

def Left : Cursor → List UInt16 → Prop
  | .array rest, values => rest.Left values
  | .bits rest, values => rest.Left values
  | .runs rest, values =>
    Flattened.Left RunCursor.Left RunCursor.ofRun (fun r => r.values.toList) rest values

theorem follows : Follows Left := by
  constructor
  · intro c values here
    cases c with
    | array rest =>
      obtain ⟨value, kept⟩ := Slice.follows.front rest values here
      exact ⟨value, kept⟩
    | bits rest =>
      obtain ⟨value, kept⟩ := BitCursor.follows.front rest values here
      exact ⟨value, kept⟩
    | runs rest =>
      obtain ⟨value, kept⟩ := (Flattened.follows RunCursor.follows).front rest values here
      exact ⟨value, kept⟩
  · intro c values here
    cases c with
    | array rest =>
      obtain ⟨value, kept⟩ := Slice.follows.back rest values here
      exact ⟨value, kept⟩
    | bits rest =>
      obtain ⟨value, kept⟩ := BitCursor.follows.back rest values here
      exact ⟨value, kept⟩
    | runs rest =>
      obtain ⟨value, kept⟩ := (Flattened.follows RunCursor.follows).back rest values here
      exact ⟨value, kept⟩

end Cursor

theorem WellFormed.left_cursor (formed : c.WellFormed) : c.cursor.Left c.values.toList := by
  cases c with
  | array s => exact Slice.left_ofArray s.values
  | bits b =>
    have listed : b.values.toList = b.words.window 0 65536 := by
      rw [BitSet.toList_values formed, List.range_eq_range']
      rfl
    have count : b.cardinality = (b.words.window 0 65536).length := by
      rw [← listed, Array.length_toList, BitSet.WellFormed.size_values formed]
    change BitCursor.Left (.ofWords b.words b.cardinality) b.values.toList
    rw [listed, count]
    exact BitCursor.left_ofWords b.words
  | runs r =>
    have listed : r.values.toList = r.runs.toList.flatMap fun r => r.values.toList := r.toList_values
    change Flattened.Left _ _ _ _ r.values.toList
    rw [listed]
    apply Flattened.left_ofArray
    intro run member
    have inside : run.stop ≤ 65536 := formed.2 run (Array.mem_toList_iff.mpr member)
    rw [RunCursor.Left, Run.toList_values run inside, ← run.count_eq inside]
    rfl

end Container

end Roaring
