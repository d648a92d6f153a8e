import Mathlib.Algebra.GroupWithZero.Nat
import Roaring.Proofs.Run.Canonical
import Roaring.Proofs.Word
import Roaring.Validation.Check

/-! All that is wrong with a view, in the order in which the validation looks for it. Here nothing stops
at the first fault: every check is made on whatever parts are there, and all that fail are listed.
The validation always answers, with the first of the list, and the list is empty exactly for the
views that are valid. -/
namespace Roaring.Validation

/-! What a valid view is. -/

def setBits (words : Array Word) : Nat :=
  (words.toList.map fun w => (List.range 64).countP w.test).sum

def ContainerView.Valid : ContainerView → Prop
  | .array cardinality content =>
    0 ≤ cardinality ∧ cardinality ≤ ArraySet.maxLength ∧ ∃ values, content = some values ∧
      cardinality ≤ values.size ∧ (values.toList.take cardinality.toNat).Pairwise (· < ·)
  | .bits cardinality words =>
    ∃ ws, words = some ws ∧ ws.size = 1024 ∧ cardinality = setBits ws
  | .runs runCount parts =>
    0 ≤ runCount ∧ ∃ rs, parts = some rs ∧
      runCount ≤ rs.size ∧ Run.Canonical (rs.toList.take runCount.toNat)
  | .unknown _ => False

/-- Keys and slots for the whole size, ascending keys, and a valid container in each slot. -/
def IndexView.Valid (index : IndexView) : Prop :=
  0 ≤ index.size ∧ ∃ keys containers, index.keys = some keys ∧
    index.containers = some containers ∧ index.size ≤ min keys.size containers.size ∧
      (keys.toList.take index.size.toNat).Pairwise (· < ·) ∧
      ∀ slot ∈ containers.toList.take index.size.toNat, ∃ view, slot = some view ∧ view.Valid

/-! The list of violations. -/

def inIndex (code : Code) (params : List Int) : Verdict := ⟨code, .bitmapViolation, params⟩

def inContainer (code : ContainerCode) (params : List Int) : Verdict :=
  ⟨.invalidContainer, code, params⟩

/-- The same violation, in the container under a key. -/
def under (key : UInt16) (v : Verdict) : Verdict := { v with params := key.toNat :: v.params }

def failing (fails : Prop) [Decidable fails] (v : Verdict) : List Verdict :=
  if fails then [v] else []

/-- Neighbours that do not increase, the second of the first pair being at index `i`. Each is given by
the index of its second value, the first value and the second. -/
def nonIncreases (i : Nat) (values : List UInt16) : List (List Int) :=
  ((values.zip values.tail).zipIdx i).filterMap fun ((a, b), i) =>
    if b ≤ a then some [i, a.toNat, b.toNat] else none

def arrayViolations (cardinality : Int) (content : Option (Array UInt16)) : List Verdict :=
  failing (cardinality < 0) (inContainer .negativeCardinality [cardinality]) ++
  failing ((ArraySet.maxLength : Int) < cardinality)
    (inContainer .tooBigCardinality [cardinality, ArraySet.maxLength]) ++
  match content with
  | none => [inContainer .nullContent []]
  | some values =>
    failing ((values.size : Int) < cardinality)
      (inContainer .cardinalityExceedsCapacity [cardinality, values.size]) ++
    (nonIncreases 1 (values.toList.take cardinality.toNat)).map (inContainer .nonIncreasingValues)

def bitViolations (cardinality : Int) : Option (Array Word) → List Verdict
  | none => [inContainer .nullBitmap []]
  | some words =>
    failing (words.size ≠ 1024) (inContainer .invalidBitmapLength [words.size]) ++
    failing (cardinality ≠ setBits words) (inContainer .invalidCardinality [cardinality, setBits words])

/-- What is wrong with the run at index `i`, behind the run `before` when there is one. -/
def runViolations (i : Nat) (before : Option Run) (r : Run) : List Verdict :=
  before.toList.flatMap (fun p => failing (r.start.toNat < p.stop)
    (inContainer .runOverlap [i, (p.stop - 1 : Nat), r.start.toNat])) ++
  failing (65536 < r.stop) (inContainer .runOverflow [i, r.start.toNat, r.length.toNat]) ++
  before.toList.flatMap (fun p => failing (r.start.toNat = p.stop)
    (inContainer .runsNotMerged [i, (p.stop - 1 : Nat), r.start.toNat]))

def runViolationsFrom (i : Nat) (before : Option Run) (runs : List Run) : List Verdict :=
  ((before :: runs.map some).zip (runs.zipIdx i)).flatMap fun (before, r, i) =>
    runViolations i before r

def runListViolations (runCount : Int) (runs : Option (Array Run)) : List Verdict :=
  failing (runCount < 0) (inContainer .negativeRunCount [runCount]) ++
  match runs with
  | none => [inContainer .nullValuesLength []]
  | some runs =>
    failing ((runs.size : Int) < runCount)
      (inContainer .capacityLessThanRunCount [runCount, runs.size]) ++
    runViolationsFrom 0 none (runs.toList.take runCount.toNat)

def containerViolations : ContainerView → List Verdict
  | .array cardinality content => arrayViolations cardinality content
  | .bits cardinality words => bitViolations cardinality words
  | .runs runCount runs => runListViolations runCount runs
  | .unknown tag => [inContainer .unknownContainerType [tag.toNat]]

def emptySlots (i : Nat) (slots : List (Option ContainerView × UInt16)) : List Verdict :=
  (slots.zipIdx i).filterMap fun ((slot, key), i) =>
    if slot = none then some (inIndex .nullContainer [i, key.toNat]) else none

def slotViolations (slots : List (Option ContainerView × UInt16)) : List Verdict :=
  slots.flatMap fun (slot, key) =>
    slot.toList.flatMap fun view => (containerViolations view).map (under key)

def entryViolations (size : Nat) (keys : List UInt16) (containers : List (Option ContainerView)) :
    List Verdict :=
  let keys := keys.take size
  let slots := (containers.take size).zip keys
  (nonIncreases 1 keys).map (inIndex .nonIncreasingKeys) ++ emptySlots 0 slots ++ slotViolations slots

def violations : Option IndexView → List Verdict
  | none => [inIndex .nullContainers []]
  | some index =>
    failing (index.size < 0) (inIndex .negativeSize [index.size]) ++
    failing (index.containers = none) (inIndex .nullContainerValues []) ++
    failing (index.keys = none) (inIndex .nullKeys []) ++
    match index.keys, index.containers with
    | some keys, some containers =>
      let capacity := min keys.size containers.size
      failing ((capacity : Int) < index.size)
        (inIndex .moreContainersThanSpace [index.size, capacity]) ++
      entryViolations index.size.toNat keys.toList containers.toList
    | _, _ => []

/-- The first violation, or success when there is none. -/
def first (found : List Verdict) : Verdict := found.headD .ok

/-! Which views have no violations. -/

theorem failing_eq_nil {fails : Prop} [Decidable fails] {v : Verdict} :
    failing fails v = [] ↔ ¬ fails := by
  rw [failing]
  split
  · simp [*]
  · simp [*]

theorem nonIncreases_cons_cons (i : Nat) (a b : UInt16) (rest : List UInt16) :
    nonIncreases i (a :: b :: rest) =
      (if b ≤ a then [[(i : Int), a.toNat, b.toNat]] else []) ++ nonIncreases (i + 1) (b :: rest) := by
  rw [nonIncreases, List.tail_cons, List.zip_cons_cons, List.zipIdx_cons, List.filterMap_cons]
  simp only
  split
  · simp_all [nonIncreases]
  · simp_all [nonIncreases]

theorem nonIncreases_eq_nil (i : Nat) (values : List UInt16) :
    nonIncreases i values = [] ↔ values.Pairwise (· < ·) := by
  rw [← List.isChain_iff_pairwise]
  induction values generalizing i with
  | nil => simp [nonIncreases]
  | cons a values ih =>
    cases values with
    | nil => simp [nonIncreases]
    | cons b rest =>
      rw [nonIncreases_cons_cons, List.append_eq_nil_iff, ih, List.isChain_cons_cons]
      simp

theorem runViolations_eq_nil (i : Nat) (before : Option Run) (r : Run) :
    runViolations i before r = [] ↔
      r.stop ≤ 65536 ∧ ∀ p ∈ before, p.stop < r.start.toNat := by
  cases before with
  | none => simp [runViolations, failing_eq_nil]
  | some p =>
    simp only [runViolations, Option.toList_some, List.flatMap_singleton, List.append_eq_nil_iff,
      failing_eq_nil, Option.mem_def, Option.some.injEq, forall_eq']
    omega

theorem runViolationsFrom_cons (i : Nat) (before : Option Run) (r : Run) (runs : List Run) :
    runViolationsFrom i before (r :: runs) =
      runViolations i before r ++ runViolationsFrom (i + 1) (some r) runs := by
  rw [runViolationsFrom, List.map_cons, List.zipIdx_cons, List.zip_cons_cons, List.flatMap_cons]
  rfl

theorem runViolationsFrom_eq_nil (i : Nat) (before : Option Run) (runs : List Run) :
    runViolationsFrom i before runs = [] ↔
      Run.Canonical runs ∧ ∀ p ∈ before, ∀ r ∈ runs, p.stop < r.start.toNat := by
  induction runs generalizing i before with
  | nil => simp [runViolationsFrom, Run.canonical_nil]
  | cons r runs ih =>
    rw [runViolationsFrom_cons, List.append_eq_nil_iff, runViolations_eq_nil, ih]
    constructor
    · rintro ⟨⟨inside, gap⟩, canonical, behind⟩
      refine ⟨⟨List.pairwise_cons.mpr ⟨behind r rfl, canonical.1⟩, ?_⟩, fun p found q member => ?_⟩
      · exact List.forall_mem_cons.mpr ⟨inside, canonical.2⟩
      · have first := gap p found
        rcases List.mem_cons.mp member with rfl | later
        · exact first
        · have := behind r rfl q later
          have := r.start_lt_stop
          omega
    · rintro ⟨canonical, behind⟩
      refine ⟨⟨canonical.stop_le, fun p found => behind p found r List.mem_cons_self⟩,
        canonical.tail, ?_⟩
      rintro p ⟨rfl⟩
      exact (List.pairwise_cons.mp canonical.1).1

theorem containerViolations_eq_nil (view : ContainerView) :
    containerViolations view = [] ↔ view.Valid := by
  cases view with
  | array cardinality content =>
    cases content with
    | none => simp [containerViolations, arrayViolations, ContainerView.Valid]
    | some values =>
      simp [containerViolations, arrayViolations, ContainerView.Valid, failing_eq_nil,
        nonIncreases_eq_nil]
  | bits cardinality words =>
    cases words with
    | none => simp [containerViolations, bitViolations, ContainerView.Valid]
    | some ws => simp [containerViolations, bitViolations, ContainerView.Valid, failing_eq_nil]
  | runs runCount parts =>
    cases parts with
    | none => simp [containerViolations, runListViolations, ContainerView.Valid]
    | some rs =>
      simp [containerViolations, runListViolations, ContainerView.Valid, failing_eq_nil,
        runViolationsFrom_eq_nil]
  | unknown tag => simp [containerViolations, ContainerView.Valid]

theorem emptySlots_cons (i : Nat) (slot : Option ContainerView) (key : UInt16)
    (slots : List (Option ContainerView × UInt16)) :
    emptySlots i ((slot, key) :: slots) =
      failing (slot = none) (inIndex .nullContainer [i, key.toNat]) ++ emptySlots (i + 1) slots := by
  rw [emptySlots, List.zipIdx_cons, List.filterMap_cons, failing]
  simp only
  split
  · simp_all [emptySlots]
  · simp_all [emptySlots]

theorem emptySlots_eq_nil (i : Nat) (slots : List (Option ContainerView × UInt16)) :
    emptySlots i slots = [] ↔ ∀ s ∈ slots, s.1 ≠ none := by
  induction slots generalizing i with
  | nil => simp [emptySlots]
  | cons s slots ih =>
    rw [emptySlots_cons, List.append_eq_nil_iff, failing_eq_nil, ih, List.forall_mem_cons]

theorem slotViolations_cons (view : ContainerView) (key : UInt16)
    (slots : List (Option ContainerView × UInt16)) :
    slotViolations ((some view, key) :: slots) =
      (containerViolations view).map (under key) ++ slotViolations slots := by
  rw [slotViolations, List.flatMap_cons]
  simp only [Option.toList_some, List.flatMap_singleton]
  rfl

theorem slotViolations_eq_nil (slots : List (Option ContainerView × UInt16)) :
    slotViolations slots = [] ↔ ∀ s ∈ slots, ∀ view ∈ s.1, view.Valid := by
  simp [slotViolations, List.flatMap_eq_nil_iff, containerViolations_eq_nil]

theorem entryViolations_eq_nil (size : Nat) (keys : List UInt16)
    (containers : List (Option ContainerView)) (inside : size ≤ keys.length) :
    entryViolations size keys containers = [] ↔ (keys.take size).Pairwise (· < ·) ∧
      ∀ slot ∈ containers.take size, ∃ view, slot = some view ∧ view.Valid := by
  have all : ((containers.take size).zip (keys.take size)).map Prod.fst = containers.take size := by
    apply List.map_fst_zip
    rw [List.length_take, List.length_take]
    omega
  have slots (good : Option ContainerView → Prop) : (∀ slot ∈ containers.take size, good slot) ↔
      ∀ s ∈ (containers.take size).zip (keys.take size), good s.1 := by
    rw [← List.forall_mem_map (f := Prod.fst), all]
  rw [entryViolations, List.append_eq_nil_iff, List.append_eq_nil_iff, List.map_eq_nil_iff,
    nonIncreases_eq_nil, emptySlots_eq_nil, slotViolations_eq_nil, and_assoc, slots, ← forall₂_and]
  refine and_congr_right fun _ => forall₂_congr fun s _ => ?_
  cases s.1 with
  | none => simp
  | some view => simp

theorem violations_eq_nil (view : Option IndexView) :
    violations view = [] ↔ ∃ index, view = some index ∧ index.Valid := by
  cases view with
  | none => simp [violations]
  | some index =>
    obtain ⟨size, keys, containers⟩ := index
    cases keys with
    | none => simp [violations, IndexView.Valid, failing_eq_nil]
    | some keys =>
      cases containers with
      | none => simp [violations, IndexView.Valid, failing_eq_nil]
      | some containers =>
        simp only [violations, IndexView.Valid, List.append_eq_nil_iff, failing_eq_nil,
          Option.some.injEq, exists_and_left, exists_eq_left', reduceCtorEq, not_false_eq_true,
          and_true, Int.not_lt]
        refine and_congr_right fun _ => and_congr_right fun short => ?_
        apply entryViolations_eq_nil
        rw [Array.length_toList]
        omega

/-! The first violation is what the validation finds. -/

theorem first_append (found others : List Verdict) :
    first (found ++ others) = found.headD (first others) := by
  cases found with
  | nil => rfl
  | cons v found => rfl

theorem first_failing (fails : Prop) [Decidable fails] (v : Verdict) (others : List Verdict) :
    first (failing fails v ++ others) = if fails then v else first others := by
  rw [first_append, failing]
  split
  · rfl
  · rfl

theorem invalid_eq (code : Code) (params : List Int) (complete : params.length = code.paramCount) :
    Verdict.invalid code params = .ok (inIndex code params) :=
  if_pos complete

theorem invalidContainer_eq (code : ContainerCode) (params : List Int)
    (complete : params.length = code.paramCount) :
    Verdict.invalidContainer code params = .ok (inContainer code params) :=
  if_pos complete

theorem leading_eq {α : Type} (xs : Array α) (count : Nat) (inside : count ≤ xs.size) :
    leading xs count = .ok (xs.toList.take count) := by
  rw [leading, if_pos inside]
  simp

theorem head?_nonIncreases (i : Nat) (values : List UInt16) :
    (nonIncreases i values).head? = (firstNonIncrease i values).map fun (i, a, b) =>
      [(i : Int), a.toNat, b.toNat] := by
  induction values generalizing i with
  | nil => rfl
  | cons a values ih =>
    cases values with
    | nil => rfl
    | cons b rest =>
      rw [nonIncreases_cons_cons, firstNonIncrease]
      split
      · rfl
      · exact ih (i + 1)

/-- A search for a step that does not go up, followed by something else, goes on to the first of all
violations. -/
theorem first_nonIncreases (i : Nat) (values : List UInt16) (report : List Int → Verdict)
    (others : List Verdict) :
    first ((nonIncreases i values).map report ++ others) =
      match firstNonIncrease i values with
      | some (i, a, b) => report [i, a.toNat, b.toNat]
      | none => first others := by
  rw [first_append, List.headD_eq_head?_getD, List.head?_map, head?_nonIncreases]
  cases firstNonIncrease i values with
  | none => rfl
  | some step => rfl

theorem checkArray_eq (cardinality : Int) (content : Option (Array UInt16)) :
    checkArray cardinality content = .ok (first (arrayViolations cardinality content)) := by
  rw [checkArray.eq_def, arrayViolations.eq_def, List.append_assoc, first_failing, first_failing]
  split
  · exact invalidContainer_eq _ _ rfl
  · rename_i nonnegative
    split
    · exact invalidContainer_eq _ _ rfl
    · cases content with
      | none => exact invalidContainer_eq _ _ rfl
      | some values =>
        simp only
        rw [first_failing]
        split
        · exact invalidContainer_eq _ _ rfl
        · rename_i enough
          have found := first_nonIncreases 1 (values.toList.take cardinality.toNat)
            (inContainer .nonIncreasingValues) []
          rw [List.append_nil] at found
          rw [leading_eq _ _ (by omega), found]
          dsimp only [bind, Except.bind]
          cases firstNonIncrease 1 (values.toList.take cardinality.toNat) with
          | some step => exact invalidContainer_eq _ _ rfl
          | none => rfl

theorem foldl_popCount_eq (words : Array Word) :
    words.foldl (fun n w => n + Word.popCount w) 0 = setBits words := by
  simp only [Word.popCount_eq_countP]
  rw [← Array.foldl_toList, setBits, List.sum_eq_foldl, List.foldl_map]

theorem checkBits_eq (cardinality : Int) (words : Option (Array Word)) :
    checkBits cardinality words = .ok (first (bitViolations cardinality words)) := by
  cases words with
  | none => exact invalidContainer_eq _ _ rfl
  | some ws =>
    rw [checkBits.eq_def, bitViolations, first_failing]
    simp only
    rw [foldl_popCount_eq]
    split
    · exact invalidContainer_eq _ _ rfl
    · rw [failing]
      split
      · exact invalidContainer_eq _ _ rfl
      · rfl

theorem checkRunsFrom_eq (i : Nat) (before : Option Run) (runs : List Run) :
    checkRunsFrom i (before.map fun p => p.start.toNat + p.length.toNat) runs =
      .ok (first (runViolationsFrom i before runs)) := by
  -- the check carries the last value of the run before, the list the run itself
  induction runs generalizing i before with
  | nil => rfl
  | cons r runs ih =>
    have rest : checkRunsFrom (i + 1) (some (r.start.toNat + r.length.toNat)) runs = _ :=
      ih (i + 1) (some r)
    have stops : r.stop = r.start.toNat + r.length.toNat + 1 := rfl
    rw [runViolationsFrom_cons, runViolations, checkRunsFrom, List.append_assoc, List.append_assoc,
      rest]
    cases before with
    | none =>
      rw [Option.toList_none, List.flatMap_nil, List.flatMap_nil, List.nil_append, List.nil_append,
        first_failing]
      simp only [Option.map_none, Option.any_none, Bool.false_eq_true, if_false]
      by_cases past : 65536 < r.stop
      · rw [if_pos past, if_pos (by omega)]
        exact invalidContainer_eq _ _ rfl
      · rw [if_neg past, if_neg (by omega)]
    | some p =>
      have stopsP : p.stop = p.start.toNat + p.length.toNat + 1 := rfl
      rw [Option.toList_some, List.flatMap_singleton, List.flatMap_singleton, first_failing,
        first_failing, first_failing]
      simp only [Option.map_some, Option.any_some, decide_eq_true_eq, beq_iff_eq]
      by_cases overlaps : r.start.toNat < p.stop
      · rw [if_pos overlaps, if_pos (by omega)]
        exact invalidContainer_eq _ _ rfl
      · rw [if_neg overlaps, if_neg (by omega)]
        by_cases past : 65536 < r.stop
        · rw [if_pos past, if_pos (by omega)]
          exact invalidContainer_eq _ _ rfl
        · rw [if_neg past, if_neg (by omega)]
          by_cases touches : r.start.toNat = p.stop
          · rw [if_pos touches, if_pos (by omega)]
            exact invalidContainer_eq _ _ rfl
          · rw [if_neg touches, if_neg (by omega)]

theorem checkRuns_eq (runCount : Int) (runs : Option (Array Run)) :
    checkRuns runCount runs = .ok (first (runListViolations runCount runs)) := by
  rw [checkRuns.eq_def, runListViolations.eq_def, first_failing]
  split
  · exact invalidContainer_eq _ _ rfl
  · cases runs with
    | none => exact invalidContainer_eq _ _ rfl
    | some rs =>
      simp only
      rw [first_failing]
      split
      · exact invalidContainer_eq _ _ rfl
      · rw [leading_eq _ _ (by omega)]
        exact checkRunsFrom_eq 0 none _

theorem checkContainer_eq (view : ContainerView) :
    checkContainer view = .ok (first (containerViolations view)) := by
  cases view with
  | array cardinality content => exact checkArray_eq cardinality content
  | bits cardinality words => exact checkBits_eq cardinality words
  | runs runCount parts => exact checkRuns_eq runCount parts
  | unknown tag => exact invalidContainer_eq _ _ rfl

theorem mem_failing {fails : Prop} [Decidable fails] {v w : Verdict} :
    v ∈ failing fails w ↔ fails ∧ v = w := by
  rw [failing]
  split
  · simp [*]
  · simp [*]

theorem length_of_mem_nonIncreases {i : Nat} {values : List UInt16} {params : List Int}
    (member : params ∈ nonIncreases i values) : params.length = 3 := by
  obtain ⟨⟨⟨a, b⟩, j⟩, -, step⟩ := List.mem_filterMap.mp member
  simp only at step
  split at step
  · rw [← Option.some.inj step]
    rfl
  · contradiction

/-- A violation inside a container, complete but for the key. -/
def Keyless (v : Verdict) : Prop :=
  v.code = .invalidContainer ∧ v.params.length = v.containerCode.paramCount

theorem keyless_arrayViolations (cardinality : Int) (content : Option (Array UInt16)) :
    ∀ v ∈ arrayViolations cardinality content, Keyless v := by
  intro v member
  rw [arrayViolations.eq_def, List.mem_append, List.mem_append, mem_failing, mem_failing] at member
  rcases member with (⟨-, rfl⟩ | ⟨-, rfl⟩) | member
  · exact ⟨rfl, rfl⟩
  · exact ⟨rfl, rfl⟩
  · cases content with
    | none =>
      rw [List.mem_singleton.mp member]
      exact ⟨rfl, rfl⟩
    | some values =>
      rcases List.mem_append.mp member with large | down
      · rw [(mem_failing.mp large).2]
        exact ⟨rfl, rfl⟩
      · obtain ⟨params, step, rfl⟩ := List.mem_map.mp down
        exact ⟨rfl, length_of_mem_nonIncreases step⟩

theorem keyless_bitViolations (cardinality : Int) (words : Option (Array Word)) :
    ∀ v ∈ bitViolations cardinality words, Keyless v := by
  intro v member
  cases words with
  | none =>
    rw [List.mem_singleton.mp member]
    exact ⟨rfl, rfl⟩
  | some ws =>
    rw [bitViolations, List.mem_append, mem_failing, mem_failing] at member
    rcases member with ⟨-, rfl⟩ | ⟨-, rfl⟩
    · exact ⟨rfl, rfl⟩
    · exact ⟨rfl, rfl⟩

theorem keyless_runViolations (i : Nat) (before : Option Run) (r : Run) :
    ∀ v ∈ runViolations i before r, Keyless v := by
  intro v member
  rw [runViolations, List.mem_append, List.mem_append, List.mem_flatMap, List.mem_flatMap] at member
  rcases member with (⟨p, -, overlap⟩ | past) | ⟨p, -, touch⟩
  · rw [(mem_failing.mp overlap).2]
    exact ⟨rfl, rfl⟩
  · rw [(mem_failing.mp past).2]
    exact ⟨rfl, rfl⟩
  · rw [(mem_failing.mp touch).2]
    exact ⟨rfl, rfl⟩

theorem keyless_runListViolations (runCount : Int) (runs : Option (Array Run)) :
    ∀ v ∈ runListViolations runCount runs, Keyless v := by
  intro v member
  rw [runListViolations.eq_def, List.mem_append, mem_failing] at member
  rcases member with ⟨-, rfl⟩ | member
  · exact ⟨rfl, rfl⟩
  · cases runs with
    | none =>
      rw [List.mem_singleton.mp member]
      exact ⟨rfl, rfl⟩
    | some rs =>
      rcases List.mem_append.mp member with large | inside
      · rw [(mem_failing.mp large).2]
        exact ⟨rfl, rfl⟩
      · obtain ⟨⟨before, r, i⟩, -, found⟩ := List.mem_flatMap.mp inside
        exact keyless_runViolations i before r v found

theorem keyless_containerViolations (view : ContainerView) :
    ∀ v ∈ containerViolations view, Keyless v := by
  cases view with
  | array cardinality content => exact keyless_arrayViolations cardinality content
  | bits cardinality words => exact keyless_bitViolations cardinality words
  | runs runCount parts => exact keyless_runListViolations runCount parts
  | unknown tag =>
    intro v member
    rw [List.mem_singleton.mp member]
    exact ⟨rfl, rfl⟩

theorem Keyless.prependKey {v : Verdict} (keyless : Keyless v) (key : UInt16) :
    v.prependKey key = .ok (under key v) := by
  rw [Verdict.prependKey, if_neg (not_not.mpr keyless.1), if_neg (not_not.mpr keyless.2)]
  rfl

theorem Keyless.isValid {v : Verdict} (keyless : Keyless v) : v.isValid = false := by
  rw [Verdict.isValid, keyless.1]
  rfl

theorem checkSlots_eq (slots : List (Option ContainerView × UInt16)) :
    checkSlots slots = .ok (first (slotViolations slots)) := by
  induction slots with
  | nil => rfl
  | cons s slots ih =>
    obtain ⟨slot, key⟩ := s
    cases slot with
    | none => exact ih
    | some view =>
      have keyless := keyless_containerViolations view
      rw [checkSlots, checkContainer_eq, ih, slotViolations_cons, first_append]
      change (if (first (containerViolations view)).isValid = true then _ else _) = _
      -- a violation found first has no key yet, so that putting one in front of it cannot fail
      cases found : containerViolations view with
      | nil => rfl
      | cons v others =>
        rw [found] at keyless
        have head : Keyless v := keyless v List.mem_cons_self
        rw [first, List.headD_cons, head.isValid, if_neg Bool.false_ne_true, head.prependKey key]
        rfl

theorem head?_emptySlots (i : Nat) (slots : List (Option ContainerView × UInt16)) :
    (emptySlots i slots).head? = (firstEmptySlot i slots).map fun (i, key) =>
      inIndex .nullContainer [i, key.toNat] := by
  induction slots generalizing i with
  | nil => rfl
  | cons s slots ih =>
    obtain ⟨slot, key⟩ := s
    rw [emptySlots_cons]
    cases slot with
    | none => rfl
    | some view =>
      rw [firstEmptySlot, ← ih, failing, if_neg (by simp), List.nil_append]

theorem checkEntries_eq (size : Nat) (keys : Array UInt16)
    (containers : Array (Option ContainerView)) (enough : size ≤ min keys.size containers.size) :
    checkEntries size keys containers =
      .ok (first (entryViolations size keys.toList containers.toList)) := by
  rw [checkEntries, leading_eq keys size (by omega), leading_eq containers size (by omega),
    entryViolations, List.append_assoc, first_nonIncreases]
  dsimp only [bind, Except.bind]
  cases firstNonIncrease 1 (keys.toList.take size) with
  | some step => exact invalid_eq _ _ rfl
  | none =>
    simp only
    rw [first_append, List.headD_eq_head?_getD, head?_emptySlots, checkSlots_eq]
    cases firstEmptySlot 0 ((containers.toList.take size).zip (keys.toList.take size)) with
    | some empty => exact invalid_eq _ _ rfl
    | none => rfl

theorem check_eq (view : Option IndexView) : check view = .ok (first (violations view)) := by
  cases view with
  | none => exact invalid_eq _ _ rfl
  | some index =>
    obtain ⟨size, keys, containers⟩ := index
    rw [check, violations, List.append_assoc, List.append_assoc, first_failing, first_failing,
      first_failing]
    simp only
    split
    · exact invalid_eq _ _ rfl
    · cases containers with
      | none =>
        rw [if_pos rfl]
        exact invalid_eq _ _ rfl
      | some containers =>
        rw [if_neg (by simp)]
        cases keys with
        | none =>
          rw [if_pos rfl]
          exact invalid_eq _ _ rfl
        | some keys =>
          rw [if_neg (by simp)]
          simp only
          rw [first_failing]
          split
          · exact invalid_eq _ _ rfl
          · exact checkEntries_eq _ keys containers (by omega)

/-! No violation passes for success. -/

theorem isValid_of_mem_entryViolations (size : Nat) (keys : List UInt16)
    (containers : List (Option ContainerView)) :
    ∀ v ∈ entryViolations size keys containers, v.isValid = false := by
  intro v member
  rw [entryViolations, List.mem_append, List.mem_append] at member
  rcases member with (down | empty) | inside
  · obtain ⟨params, -, rfl⟩ := List.mem_map.mp down
    rfl
  · obtain ⟨⟨⟨slot, key⟩, i⟩, -, found⟩ := List.mem_filterMap.mp empty
    simp only at found
    split at found
    · rw [← Option.some.inj found]
      rfl
    · contradiction
  · obtain ⟨⟨slot, key⟩, -, found⟩ := List.mem_flatMap.mp inside
    obtain ⟨view, -, listed⟩ := List.mem_flatMap.mp found
    obtain ⟨w, violation, rfl⟩ := List.mem_map.mp listed
    exact (keyless_containerViolations view w violation).isValid

theorem isValid_of_mem_violations (view : Option IndexView) :
    ∀ v ∈ violations view, v.isValid = false := by
  intro v member
  cases view with
  | none =>
    rw [List.mem_singleton.mp member]
    rfl
  | some index =>
    rw [violations, List.mem_append, List.mem_append, List.mem_append, mem_failing, mem_failing,
      mem_failing] at member
    rcases member with ((⟨-, rfl⟩ | ⟨-, rfl⟩) | ⟨-, rfl⟩) | member
    · rfl
    · rfl
    · rfl
    · split at member
      · rcases List.mem_append.mp member with large | inside
        · rw [(mem_failing.mp large).2]
          rfl
        · exact isValid_of_mem_entryViolations _ _ _ v inside
      · contradiction

theorem isValid_first_violations (view : Option IndexView) :
    (first (violations view)).isValid = true ↔ violations view = [] := by
  have listed := isValid_of_mem_violations view
  cases found : violations view with
  | nil => exact iff_of_true rfl rfl
  | cons v others =>
    rw [found] at listed
    have head : v.isValid = false := listed v List.mem_cons_self
    simp [first, head]

instance (index : IndexView) : Decidable index.Valid :=
  decidable_of_iff (violations (some index) = []) (by simp [violations_eq_nil])

/-- The validation of any view answers: with success exactly for the valid views, and else with the
first of all that is wrong. -/
theorem check_first_violation (view : Option IndexView) :
    check view = .ok ((violations view).headD .ok) ∧
      (check view = .ok .ok ↔ ∃ index, view = some index ∧ index.Valid) := by
  refine ⟨check_eq view, ?_⟩
  rw [check_eq, Except.ok.injEq, ← violations_eq_nil, ← isValid_first_violations]
  constructor
  · intro success
    rw [success]
    rfl
  · intro valid
    rw [(isValid_first_violations view).mp valid]
    rfl

/-- Three faults, of which the one in the keys is reported. -/
example :
    let index : IndexView := ⟨2, some #[5, 5], some #[some (.unknown 9), none]⟩
    violations (some index) = [inIndex .nonIncreasingKeys [1, 5, 5], inIndex .nullContainer [1, 5],
      inContainer .unknownContainerType [5, 9]] ∧ ¬ index.Valid := by
  decide

end Roaring.Validation
