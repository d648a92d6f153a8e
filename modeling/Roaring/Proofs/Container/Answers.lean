import Roaring.Proofs.Container.Queries

/-! The answers of a container as functions of the set that it holds. -/
namespace Roaring

/-! Sets in ascending order. -/

section Sorted

variable {S : Finset UInt16}

theorem sort_ascending (S : Finset UInt16) : S.sort.Pairwise (· < ·) := by
  have distinct : S.sort.Pairwise (· ≠ ·) := S.sort_nodup (· ≤ ·)
  exact (distinct.and (S.pairwise_sort (· ≤ ·))).imp fun both =>
    UInt16.lt_of_le_of_ne both.2 both.1

theorem eq_sort {values : List UInt16} (ascending : values.Pairwise (· < ·))
    (same : ∀ v, v ∈ values ↔ v ∈ S) : values = S.sort := by
  apply List.Pairwise.eq_of_mem_iff ascending (sort_ascending S)
  intro v
  rw [same, Finset.mem_sort]

theorem countP_sort (S : Finset UInt16) (v : UInt16) :
    S.sort.countP (· ≤ v) = (S.filter (· ≤ v)).card := by
  have kept : (S.sort.filter (· ≤ v)).toFinset = S.filter (· ≤ v) := by
    ext u
    simp
  have distinct : (S.sort.filter (· ≤ v)).Nodup := (S.sort_nodup (· ≤ ·)).filter _
  rw [List.countP_eq_length_filter, ← kept, List.toFinset_card_of_nodup distinct]

theorem mapIdx_sort (S : Finset UInt16) :
    S.sort.mapIdx (fun i v => (i + 1, v)) = S.sort.map fun v => ((S.filter (· ≤ v)).card, v) := by
  apply List.ext_getElem
  · rw [List.length_mapIdx, List.length_map]
  · intro i bound _
    rw [List.length_mapIdx] at bound
    rw [List.getElem_mapIdx, List.getElem_map, ← countP_sort,
      Search.countP_le_getElem (sort_ascending S) i bound]

theorem head?_sort_iff (m : UInt16) : S.sort.head? = some m ↔ IsLeast (S : Set UInt16) m := by
  have sorted := sort_ascending S
  constructor
  · intro first
    obtain ⟨rest, parts⟩ := List.head?_eq_some_iff.mp first
    rw [parts] at sorted
    refine ⟨?_, fun v member => ?_⟩
    · rw [Finset.mem_coe, ← Finset.mem_sort (· ≤ ·), parts]
      exact List.mem_cons_self
    · rw [Finset.mem_coe, ← Finset.mem_sort (· ≤ ·), parts] at member
      rcases List.mem_cons.mp member with rfl | later
      · exact UInt16.le_refl v
      · exact UInt16.le_of_lt ((List.pairwise_cons.mp sorted).1 v later)
  · intro least
    apply Container.head?_of_least _ sorted
    · exact (Finset.mem_sort _).mpr least.1
    · exact fun v member => least.2 ((Finset.mem_sort _).mp member)

theorem getLast?_sort_iff (m : UInt16) :
    S.sort.getLast? = some m ↔ IsGreatest (S : Set UInt16) m := by
  have sorted := sort_ascending S
  constructor
  · intro last
    obtain ⟨before, parts⟩ := List.getLast?_eq_some_iff.mp last
    rw [parts] at sorted
    refine ⟨?_, fun v member => ?_⟩
    · rw [Finset.mem_coe, ← Finset.mem_sort (· ≤ ·), parts]
      simp
    · rw [Finset.mem_coe, ← Finset.mem_sort (· ≤ ·), parts] at member
      rcases List.mem_append.mp member with earlier | here
      · exact UInt16.le_of_lt ((List.pairwise_append.mp sorted).2.2 v earlier m (by simp))
      · rw [List.mem_singleton.mp here]
        exact UInt16.le_refl m
  · intro greatest
    apply Container.getLast?_of_greatest _ sorted
    · exact (Finset.mem_sort _).mpr greatest.1
    · exact fun v member => greatest.2 ((Finset.mem_sort _).mp member)

end Sorted

/-! Maximal runs. -/

/-- Consecutive values of a set, with no value of it right before them or right behind. -/
structure MaximalRun (S : Finset UInt16) (first last : UInt16) : Prop where
  ordered : first ≤ last
  held : ∀ v, first ≤ v → v ≤ last → v ∈ S
  before : ∀ u : UInt16, u.toNat + 1 = first.toNat → u ∉ S
  behind : ∀ u : UInt16, u.toNat = last.toNat + 1 → u ∉ S

namespace MaximalRun

variable {S : Finset UInt16} {first last last' : UInt16}

theorem last_le (one : MaximalRun S first last) (other : MaximalRun S first last') :
    last' ≤ last := by
  by_contra longer
  have longer := UInt16.lt_iff_toNat_lt.mp (UInt16.not_le.mp longer)
  have ordered := UInt16.le_iff_toNat_le.mp one.ordered
  have next : (last + 1).toNat = last.toNat + 1 := by
    apply Run.toNat_succ
    have := last'.toNat_lt
    omega
  apply one.behind (last + 1) next
  apply other.held
  · rw [UInt16.le_iff_toNat_le]
    omega
  · rw [UInt16.le_iff_toNat_le]
    omega

theorem last_unique (one : MaximalRun S first last) (other : MaximalRun S first last') :
    last = last' :=
  UInt16.le_antisymm (other.last_le one) (one.last_le other)

/-- A run ends before the first position from its start on that holds no value of the set. -/
theorem exists_last (start : first ∈ S) (before : ∀ u : UInt16, u.toNat + 1 = first.toNat → u ∉ S) :
    ∃ last, MaximalRun S first last := by
  have ends : ∃ n, first.toNat < n ∧ ∀ u : UInt16, u.toNat = n → u ∉ S := by
    refine ⟨65536, first.toNat_lt, fun u past => ?_⟩
    have := u.toNat_lt
    omega
  classical
  obtain ⟨stop, ⟨past, absent⟩, least⟩ :
      ∃ stop, (first.toNat < stop ∧ ∀ u : UInt16, u.toNat = stop → u ∉ S) ∧
        ∀ n < stop, ¬ (first.toNat < n ∧ ∀ u : UInt16, u.toNat = n → u ∉ S) :=
    ⟨Nat.find ends, Nat.find_spec ends, fun n => Nat.find_min ends⟩
  have inside : stop ≤ 65536 := by
    by_contra outside
    apply least 65536 (by omega)
    refine ⟨first.toNat_lt, fun u same => ?_⟩
    have := u.toNat_lt
    omega
  have value : (stop - 1).toUInt16.toNat = stop - 1 := toNat_toUInt16 (by omega)
  refine ⟨(stop - 1).toUInt16, ?_, fun v low high => ?_, before, fun u next => ?_⟩
  · rw [UInt16.le_iff_toNat_le, value]
    omega
  · rw [UInt16.le_iff_toNat_le] at low high
    rw [value] at high
    rcases Nat.lt_or_eq_of_le low with later | same
    · have held := least v.toNat (by omega)
      rw [not_and, not_forall] at held
      obtain ⟨u, found⟩ := held later
      rw [Classical.not_imp, not_not] at found
      obtain ⟨same, member⟩ := found
      rwa [← UInt16.toNat_inj.mp same]
    · rwa [← UInt16.toNat_inj.mp same]
  · rw [value] at next
    exact absent u (by omega)

end MaximalRun

/-- The maximal runs of a set are as many as the values that start one. -/
theorem RunStarts.length_eq_ncard {starts : List UInt16} {S : Finset UInt16}
    (runs : RunStarts starts (· ∈ S)) :
    starts.length = {run : UInt16 × UInt16 | MaximalRun S run.1 run.2}.ncard := by
  have distinct : starts.Nodup := runs.ascending.imp UInt16.ne_of_lt
  have injective : Set.InjOn Prod.fst {run : UInt16 × UInt16 | MaximalRun S run.1 run.2} := by
    intro run one run' other same
    refine Prod.ext same (one.last_unique ?_)
    rw [same]
    exact other
  have image : Prod.fst '' {run : UInt16 × UInt16 | MaximalRun S run.1 run.2} =
      (starts.toFinset : Set UInt16) := by
    ext first
    rw [Finset.mem_coe, List.mem_toFinset, runs.mem_iff]
    constructor
    · intro starts
      obtain ⟨⟨_, last⟩, run, rfl⟩ := starts
      exact ⟨run.held _ (UInt16.le_refl _) run.ordered, run.before⟩
    · intro start
      obtain ⟨last, run⟩ := MaximalRun.exists_last start.1 start.2
      exact ⟨(first, last), run, rfl⟩
  rw [← injective.ncard_image, image, Set.ncard_coe_finset,
    List.toFinset_card_of_nodup distinct]

namespace Container

/-- What a container that holds the set answers. -/
structure Answers (c : Container) (S : Finset UInt16) : Prop where
  cardinality : c.cardinality = S.card
  isEmpty : c.isEmpty = true ↔ S = ∅
  contains : ∀ v, c.contains v = true ↔ v ∈ S
  containsRange : ∀ range : Span, range.stop ≤ 65536 → ∃ held, c.containsRange range = .ok held ∧
    (held = true ↔ ∀ v : UInt16, v.toNat ∈ range → v ∈ S)
  rank : ∀ v, c.rank v = (S.filter (· ≤ v)).card
  select : ∀ n, c.select n = S.sort[n]?
  min? : ∀ m, c.min? = some m ↔ IsLeast (S : Set UInt16) m
  max? : ∀ m, c.max? = some m ↔ IsGreatest (S : Set UInt16) m
  countRuns : c.countRuns = {run : UInt16 × UInt16 | MaximalRun S run.1 run.2}.ncard
  values : c.values.toList = S.sort
  valuesDescending : c.valuesDescending.toList = S.sort.reverse
  ranked : c.ranked.toList = S.sort.map fun v => ((S.filter (· ≤ v)).card, v)
  walked : ∀ turns, walk turns c.cursor = walk turns S.sort

variable {c : Container} {S : Finset UInt16}

theorem WellFormed.values_eq_sort (formed : c.WellFormed) (holds : ∀ v, v ∈ c ↔ v ∈ S) :
    c.values.toList = S.sort := by
  refine eq_sort formed.values_ascending fun v => ?_
  rw [Array.mem_toList_iff, formed.mem_values, holds]

theorem WellFormed.cardinality_eq_card (formed : c.WellFormed) (holds : ∀ v, v ∈ c ↔ v ∈ S) :
    c.cardinality = S.card := by
  rw [← formed.size_values, ← Array.length_toList, formed.values_eq_sort holds, Finset.length_sort]

/-- The answers of a well-formed container are those of the set that it holds, whatever the
encoding. -/
theorem answers_of_holds (S : Finset UInt16) (c : Container) (formed : c.WellFormed)
    (holds : ∀ v, v ∈ c ↔ v ∈ S) : c.Answers S := by
  have sorted := formed.values_eq_sort holds
  obtain ⟨starts, runs, length⟩ := formed.runStarts
  simp only [holds] at runs
  constructor
  case cardinality => exact formed.cardinality_eq_card holds
  case isEmpty =>
    rw [formed.isEmpty_iff, Finset.eq_empty_iff_forall_notMem]
    exact forall_congr' fun v => not_congr (holds v)
  case contains =>
    intro v
    rw [formed.contains_iff, holds]
  case containsRange =>
    intro range inside
    obtain ⟨held, result, meaning⟩ := formed.containsRange_spec range inside
    simp only [holds] at meaning
    exact ⟨held, result, meaning⟩
  case rank =>
    intro v
    rw [formed.rank_eq, sorted, countP_sort]
  case select =>
    intro n
    rw [formed.select_eq, sorted]
  case min? =>
    intro m
    rw [formed.min?_eq, sorted, head?_sort_iff]
  case max? =>
    intro m
    rw [formed.max?_eq, sorted, getLast?_sort_iff]
  case countRuns => rw [← length, runs.length_eq_ncard]
  case values => exact sorted
  case valuesDescending => rw [formed.valuesDescending_eq, sorted]
  case ranked => rw [ranked, Array.toList_mapIdx, sorted, mapIdx_sort]
  case walked =>
    intro turns
    rw [Cursor.follows.walk_eq turns _ _ formed.left_cursor, sorted]

/-- The last two values of the domain, as a list, as bits and as a run. -/
theorem answers_of_holds_last_two :
    (array ⟨#[65534, 65535]⟩).Answers {65534, 65535} ∧
      (bits (.ofSortedValues #[65534, 65535])).Answers {65534, 65535} ∧
      (runs ⟨#[⟨65534, 1⟩]⟩).Answers {65534, 65535} := by
  refine ⟨answers_of_holds _ _ (by decide) fun v => ?_,
    answers_of_holds _ _ (BitSet.wellFormed_ofWords _) fun v => ?_,
    answers_of_holds _ _ (by decide) fun v => ?_⟩
  · rw [mem_array, ArraySet.mem_def]
    simp
  · rw [mem_bits, BitSet.mem_ofSortedValues]
    simp
  · have high := v.toNat_lt
    rw [mem_runs, RunSet.mem_def]
    simp [Run.Covers, Run.stop, ← UInt16.toNat_inj]
    omega

end Container

end Roaring
