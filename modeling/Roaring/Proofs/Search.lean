import Roaring.Search
import Mathlib.Data.List.Basic

/-! Bisection of an array whose elements stand in the order that the question asks for: it finds
the index that parts the elements on one side from those on the other. -/
namespace Roaring.Search

variable {α : Type}

/-- What is left of the window is the last index whose element passes, or the start of the
window when none behind it does. -/
theorem narrow_spec (low : Nat → Bool) (base size : Nat) (pos : 0 < size)
    (falling : ∀ i j, i ≤ j → low j = true → low i = true) :
    base ≤ narrow low base size ∧ narrow low base size < base + size ∧
      ∀ j, base < j → j < base + size → (low j = true ↔ j ≤ narrow low base size) := by
  induction size using Nat.strongRecOn generalizing base with
  | ind size ih =>
    rw [narrow]
    split
    · refine ⟨Nat.le_refl _, by omega, ?_⟩
      intro j above below
      omega
    · rename_i wide
      cases upper : low (base + size / 2) with
      | true =>
        simp only [if_true]
        obtain ⟨above, below, parts⟩ :=
          ih (size - size / 2) (by omega) (base + size / 2) (by omega)
        refine ⟨by omega, by omega, ?_⟩
        intro j left right
        rcases Nat.lt_or_ge (base + size / 2) j with far | near
        · exact parts j far (by omega)
        · constructor
          · intro _
            omega
          · intro _
            exact falling j _ near upper
      | false =>
        simp only [Bool.false_eq_true, if_false]
        obtain ⟨above, below, parts⟩ := ih (size - size / 2) (by omega) base (by omega)
        refine ⟨above, by omega, ?_⟩
        intro j left right
        rcases Nat.lt_or_ge j (base + (size - size / 2)) with near | far
        · exact parts j left near
        · constructor
          · intro passes
            have := falling (base + size / 2) j (by omega) passes
            simp_all
          · intro _
            omega

theorem any_eq_true_iff (xs : Array α) (p : α → Bool) (i : Nat) :
    xs[i]?.any p = true ↔ ∃ a, xs.toList[i]? = some a ∧ p a = true := by
  rw [Array.getElem?_toList]
  cases xs[i]? <;> simp

/-- The elements of a list in the order that a test asks for: none passes behind one that fails. -/
def Falling (p : α → Bool) (xs : List α) : Prop := xs.Pairwise (fun a b => p b = true → p a = true)

theorem Falling.any_of_le (xs : Array α) (p : α → Bool) (sorted : Falling p xs.toList) (i j : Nat)
    (le : i ≤ j) (passes : xs[j]?.any p = true) : xs[i]?.any p = true := by
  obtain ⟨b, atJ, passesB⟩ := (any_eq_true_iff xs p j).mp passes
  obtain ⟨insideJ, rfl⟩ := List.getElem?_eq_some_iff.mp atJ
  refine (any_eq_true_iff xs p i).mpr ⟨_, List.getElem?_eq_getElem (by omega), ?_⟩
  rcases Nat.lt_or_eq_of_le le with less | rfl
  · exact List.pairwise_iff_getElem.mp sorted i j (by omega) insideJ less passesB
  · exact passesB

/-- An index that parts a list: what stands before it passes, what stands from it on fails. -/
structure Parts (p : α → Bool) (xs : List α) (i : Nat) : Prop where
  inside : i ≤ xs.length
  passes : ∀ a ∈ xs.take i, p a = true
  fails : ∀ a ∈ xs.drop i, p a = false

theorem Parts.of_getElem (p : α → Bool) (xs : List α) (i : Nat) (inside : i ≤ xs.length)
    (each : ∀ (j : Nat) (bound : j < xs.length), p xs[j] = true ↔ j < i) : Parts p xs i := by
  refine ⟨inside, ?_, ?_⟩
  · intro a member
    obtain ⟨j, bound, rfl⟩ := List.mem_iff_getElem.mp member
    rw [List.length_take] at bound
    rw [List.getElem_take, each j (by omega)]
    omega
  · intro a member
    obtain ⟨j, bound, rfl⟩ := List.mem_iff_getElem.mp member
    rw [List.length_drop] at bound
    rw [List.getElem_drop, Bool.eq_false_iff, ne_eq, each (i + j) (by omega)]
    omega

theorem Parts.take_eq_filter {p : α → Bool} {xs : List α} {i : Nat} (parts : Parts p xs i) :
    xs.take i = xs.filter p := by
  conv_rhs => rw [← List.take_append_drop i xs, List.filter_append,
    List.filter_eq_self.mpr parts.passes,
    List.filter_eq_nil_iff.mpr (by simpa using parts.fails), List.append_nil]

/-- In ascending order the values up to an entry are those at its index and before. -/
theorem countP_le_getElem [LT α] [LE α] [DecidableLE α] [Std.IsLinearOrder α] [Std.LawfulOrderLT α]
    {xs : List α} (ascending : xs.Pairwise (· < ·)) (i : Nat) (inside : i < xs.length) :
    xs.countP (· ≤ xs[i]) = i + 1 := by
  have ordered := List.pairwise_iff_getElem.mp ascending
  have parts : Parts (fun a => decide (a ≤ xs[i])) xs (i + 1) := by
    refine Parts.of_getElem _ _ _ inside fun j bound => ?_
    rw [decide_eq_true_eq, Nat.lt_succ_iff]
    rcases Nat.lt_trichotomy j i with before | rfl | behind
    · exact iff_of_true (Std.le_of_lt (ordered j i bound inside before)) (Nat.le_of_lt before)
    · exact iff_of_true (Std.le_refl _) (Nat.le_refl j)
    · exact iff_of_false (Std.not_le.mpr (ordered i j inside bound behind))
        (Nat.not_le_of_lt behind)
  rw [List.countP_eq_length_filter, ← parts.take_eq_filter, List.length_take,
    Nat.min_eq_left parts.inside]

/-- From a start on that lies in the part that passes, the search finds the parting index. -/
theorem parts_partitionPointFrom (xs : Array α) (start : Nat) (p : α → Bool)
    (sorted : Falling p xs.toList) (inside : start ≤ xs.size)
    (before : ∀ a ∈ xs.toList.take start, p a = true) :
    start ≤ partitionPointFrom xs start p ∧ Parts p xs.toList (partitionPointFrom xs start p) := by
  have low := Falling.any_of_le xs p sorted
  have early (j : Nat) (bound : j < xs.toList.length) (left : j < start) : p xs.toList[j] = true :=
    before _ (List.mem_take_iff_getElem.mpr ⟨j, by omega, rfl⟩)
  have test (j : Nat) (bound : j < xs.toList.length) :
      xs[j]?.any p = true ↔ p xs.toList[j] = true := by
    rw [any_eq_true_iff, List.getElem?_eq_getElem bound]
    simp
  simp only [partitionPointFrom]
  rcases Nat.lt_or_ge start xs.size with more | none
  · obtain ⟨above, below, parts⟩ := narrow_spec (fun i => xs[i]?.any p) start (xs.size - start)
      (by omega) low
    generalize found : narrow (fun i => xs[i]?.any p) start (xs.size - start) = i at *
    have length : xs.toList.length = xs.size := Array.length_toList
    split
    · rename_i passes
      refine ⟨by omega, Parts.of_getElem p _ _ (by omega) ?_⟩
      intro j bound
      rw [← test j bound]
      rcases Nat.lt_or_ge i j with right | left
      · rw [parts j (by omega) (by omega)]
        omega
      · exact ⟨fun _ => by omega, fun _ => low j i left passes⟩
    · rename_i fails
      refine ⟨above, Parts.of_getElem p _ _ (by omega) ?_⟩
      intro j bound
      constructor
      · intro passes
        by_contra right
        exact fails (low i j (by omega) ((test j bound).mpr passes))
      · intro left
        rcases Nat.lt_or_ge j start with first | later
        · exact early j bound first
        · rcases Nat.lt_or_eq_of_le later with strictly | rfl
          · exact (test j bound).mp ((parts j strictly (by omega)).mpr (by omega))
          · have := (parts i (by omega) (by omega)).mpr (Nat.le_refl i)
            exact absurd this fails
  · have stays : narrow (fun i => xs[i]?.any p) start (xs.size - start) = start := by
      rw [narrow, if_pos (by omega)]
    have past : ¬ xs[start]?.any p = true := by simp [Array.getElem?_eq_none none]
    rw [stays, if_neg past]
    refine ⟨Nat.le_refl _, Parts.of_getElem p _ _ (by simpa using inside) ?_⟩
    intro j bound
    rw [Array.length_toList] at bound
    exact ⟨fun _ => by omega, fun left => early j (by simpa using bound) left⟩

theorem parts_partitionPoint (xs : Array α) (p : α → Bool) (sorted : Falling p xs.toList) :
    Parts p xs.toList (partitionPoint xs p) :=
  (parts_partitionPointFrom xs 0 p sorted (Nat.zero_le _) (by simp)).2

/-- The search looks at the elements through its test only. -/
theorem partitionPointFrom_map {β : Type} (xs : Array α) (f : α → β) (start : Nat) (p : β → Bool) :
    partitionPointFrom (xs.map f) start p = partitionPointFrom xs start (fun a => p (f a)) := by
  simp only [partitionPointFrom, Array.getElem?_map, Option.any_map, Array.size_map]

theorem partitionPoint_map {β : Type} (xs : Array α) (f : α → β) (p : β → Bool) :
    partitionPoint (xs.map f) p = partitionPoint xs (fun a => p (f a)) :=
  partitionPointFrom_map xs f 0 p

/-- The elements of a list in strict order about a target: all before one that is not past the
target are below it. -/
def Ordered (order : α → Ordering) (xs : List α) : Prop :=
  xs.Pairwise (fun a b => order b ≠ .gt → order a = .lt)

/-- The element at an index is the target, with smaller ones before it and greater ones behind. -/
structure Hit (order : α → Ordering) (xs : List α) (i : Nat) : Prop where
  here : ∃ a, xs[i]? = some a ∧ order a = .eq
  before : ∀ a ∈ xs.take i, order a = .lt
  behind : ∀ a ∈ xs.drop (i + 1), order a = .gt

/-- The target is not there; the index parts the smaller elements from the greater ones. -/
structure Gap (order : α → Ordering) (xs : List α) (i : Nat) : Prop where
  inside : i ≤ xs.length
  before : ∀ a ∈ xs.take i, order a = .lt
  behind : ∀ a ∈ xs.drop i, order a = .gt

def Place.Fits (order : α → Ordering) (xs : List α) : Place → Prop
  | .hit i => Hit order xs i
  | .gap i => Gap order xs i

private theorem before_of_last (order : α → Ordering) (xs : List α) (sorted : Ordered order xs)
    (i : Nat) (bound : i < xs.length) (notPast : 0 < i → order xs[i] ≠ .gt) :
    ∀ a ∈ xs.take i, order a = .lt := by
  intro a member
  obtain ⟨j, inside, rfl⟩ := List.mem_take_iff_getElem.mp member
  exact List.pairwise_iff_getElem.mp sorted j i (by omega) bound (by omega) (notPast (by omega))

private theorem behind_of_last (order : α → Ordering) (xs : List α) (i : Nat)
    (past : ∀ (j : Nat) (bound : j < xs.length), i < j → order xs[j] = .gt) :
    ∀ a ∈ xs.drop (i + 1), order a = .gt := by
  intro a member
  obtain ⟨j, inside, rfl⟩ := List.mem_drop_iff_getElem.mp member
  exact past _ _ (by omega)

/-- In strict order the place found is where the target stands, or the gap where it would. -/
theorem fits_locate (xs : Array α) (order : α → Ordering) (sorted : Ordered order xs.toList) :
    (locate xs order).Fits order xs.toList := by
  have falling : Falling (fun a => order a != .gt) xs.toList := by
    apply sorted.imp
    intro a b strict notPast
    have below := strict (by simpa using notPast)
    simp [below]
  have low := Falling.any_of_le xs (fun a => order a != .gt) falling
  simp only [locate]
  rcases Nat.eq_zero_or_pos xs.size with empty | pos
  · have nil : xs = #[] := Array.eq_empty_of_size_eq_zero empty
    subst nil
    simp only [List.size_toArray, List.length_nil, List.getElem?_toArray, List.getElem?_nil]
    exact ⟨Nat.zero_le _, by simp, by simp⟩
  · obtain ⟨-, below, parts⟩ := narrow_spec _ 0 xs.size pos low
    generalize found : narrow (fun i => xs[i]?.any (fun a => order a != .gt)) 0 xs.size = i at *
    have bound : i < xs.toList.length := by simpa using below
    have test (j : Nat) (inside : j < xs.toList.length) :
        xs[j]?.any (fun a => order a != .gt) = true ↔ order xs.toList[j] ≠ .gt := by
      rw [any_eq_true_iff, List.getElem?_eq_getElem inside]
      simp
    have notPast : 0 < i → order xs.toList[i] ≠ .gt := fun positive =>
      (test i bound).mp ((parts i positive (by omega)).mpr (Nat.le_refl i))
    have past (j : Nat) (inside : j < xs.toList.length) (later : i < j) :
        order xs.toList[j] = .gt := by
      by_contra within
      have := (parts j (by omega) (by simpa using inside)).mp ((test j inside).mpr within)
      omega
    have before := before_of_last order xs.toList sorted i bound notPast
    have behind := behind_of_last order xs.toList i past
    have here : xs[i]? = some xs.toList[i] := by
      rw [← Array.getElem?_toList, List.getElem?_eq_getElem bound]
    rw [here]
    cases compared : order xs.toList[i] with
    | eq =>
      simp only [compared]
      exact ⟨⟨_, List.getElem?_eq_getElem bound, compared⟩, before, behind⟩
    | lt =>
      simp only [compared]
      refine ⟨bound, ?_, behind⟩
      rw [List.take_succ_eq_append_getElem bound]
      intro a member
      rcases List.mem_append.mp member with early | last
      · exact before a early
      · rw [List.mem_singleton.mp last, compared]
    | gt =>
      simp only [compared]
      refine ⟨Nat.le_of_lt bound, before, ?_⟩
      rw [List.drop_eq_getElem_cons bound]
      intro a member
      rcases List.mem_cons.mp member with rfl | late
      · exact compared
      · exact behind a late

section
variable {xs : Array α} {order : α → Ordering} {i : Nat}

theorem locate_map {β : Type} (xs : Array α) (f : α → β) (order : β → Ordering) :
    locate (xs.map f) order = locate xs (fun a => order (f a)) := by
  simp only [locate, Array.getElem?_map, Option.any_map, Array.size_map]
  cases xs[narrow (fun i => xs[i]?.any (fun a => order (f a) != .gt)) 0 xs.size]? <;> rfl

theorem getElem?_of_hit (found : locate xs order = .hit i) : ∃ a, xs[i]? = some a := by
  simp only [locate] at found
  split at found
  · contradiction
  · rename_i a here
    split at found <;> cases found
    exact ⟨a, here⟩

theorem le_size_of_gap (found : locate xs order = .gap i) : i ≤ xs.size := by
  simp only [locate] at found
  split at found
  · cases found
    exact Nat.zero_le _
  · rename_i a here
    have inside := (Array.getElem?_eq_some_iff.mp here).1
    split at found <;> cases found
    · exact inside
    · exact Nat.le_of_lt inside

end

end Roaring.Search
