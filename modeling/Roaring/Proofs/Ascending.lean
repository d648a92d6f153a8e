import Mathlib.Data.List.Chain
import Roaring.ArraySet

/-! The chunked order check answers as a plain one would. Its chunks have their end elements in
common, so that every pair of neighbours stands in one of them. The bound of its loop is a size that
could fall below zero and its chunks are slices that could end past the array; neither happens. -/
namespace Roaring.Ascending

variable {α : Type}

variable [LT α]

/-- Every element is smaller than its successor. -/
def Increasing (xs : Array α) : Prop := ∀ (i : Nat) (next : i + 1 < xs.size), xs[i] < xs[i + 1]

variable [DecidableLT α]

theorem adjacent_iff (xs : List α) : adjacent xs = true ↔ xs.IsChain (· < ·) := by
  induction xs with
  | nil => simp [adjacent]
  | cons a rest ih =>
    cases rest with
    | nil => simp [adjacent]
    | cons b rest =>
      rw [adjacent, Bool.and_eq_true, decide_eq_true_eq, ih, List.isChain_cons_cons]

/-- A stretch of the array is in order when the pairs of neighbours inside it are. -/
theorem adjacent_extract_iff (xs : Array α) (lo hi : Nat) (inside : hi ≤ xs.size) :
    adjacent (xs.extract lo hi).toList = true ↔
      ∀ (i : Nat) (next : i + 1 < xs.size), lo ≤ i → i + 1 < hi → xs[i] < xs[i + 1] := by
  rw [adjacent_iff, List.isChain_iff_getElem]
  simp only [Array.length_toList, Array.size_extract, Array.getElem_toList, Array.getElem_extract]
  constructor
  · intro chain i next low high
    have pair := chain (i - lo) (by omega)
    simpa only [show lo + (i - lo) = i by omega, show lo + (i - lo + 1) = i + 1 by omega] using pair
  · intro pairs k next
    exact pairs (lo + k) (by omega) (by omega) (by omega)

/-- The pairs of neighbours from an index on are in order. -/
def IncreasingFrom (xs : Array α) (i : Nat) : Prop :=
  ∀ (k : Nat) (next : k + 1 < xs.size), i ≤ k → xs[k] < xs[k + 1]

/-- A chunk in order may be left behind: it ends with the first element of the next one. -/
theorem increasingFrom_of_chunk {xs : Array α} {i : Nat} (fits : i + chunkSize ≤ xs.size)
    (ordered : adjacent (xs.extract i (i + chunkSize)).toList = true) :
    IncreasingFrom xs (i + (chunkSize - 1)) ↔ IncreasingFrom xs i := by
  have here := (adjacent_extract_iff xs i (i + chunkSize) fits).mp ordered
  simp only [chunkSize] at here ⊢
  refine ⟨fun later k next low => ?_, fun all k next low => all k next (by omega)⟩
  rcases Nat.lt_or_ge k (i + 32) with early | late
  · exact here k next low (by omega)
  · exact later k next late

/-- A turn inside an array that has room for a chunk finds a bound and reads what is there. -/
theorem turn_spec {xs : Array α} (long : chunkSize ≤ xs.size) {i : Nat} (inside : i ≤ xs.size) :
    (∃ answer, turn xs i = .ok (.inl answer) ∧ (answer = true ↔ IncreasingFrom xs i)) ∨
      (turn xs i = .ok (.inr (i + (chunkSize - 1))) ∧ i + chunkSize < xs.size ∧
        (IncreasingFrom xs (i + (chunkSize - 1)) ↔ IncreasingFrom xs i)) := by
  rw [turn, minus_of_le long, ok_bind]
  split
  · rename_i more
    have fits : i + chunkSize ≤ xs.size := by omega
    rw [stretch_of_le (Nat.le_add_right i chunkSize) fits, ok_bind]
    split
    · rename_i ordered
      exact Or.inr ⟨rfl, by omega, increasingFrom_of_chunk fits ordered⟩
    · rename_i disordered
      refine Or.inl ⟨false, rfl, iff_of_false Bool.false_ne_true fun all => disordered ?_⟩
      rw [adjacent_extract_iff xs i _ fits]
      exact fun k next low _ => all k next low
  · rw [stretch_of_le inside (Nat.le_refl _), ok_bind]
    refine Or.inl ⟨_, rfl, ?_⟩
    rw [adjacent_extract_iff xs i xs.size (Nat.le_refl _)]
    exact ⟨fun pairs k next low => pairs k next low next, fun all k next low _ => all k next low⟩

/-- The loop in a number of turns, without an answer when they run out. -/
def answerWithin (xs : Array α) : (turns i : Nat) → Option (Checked Bool)
  | 0, _ => none
  | turns + 1, i =>
    match turn xs i with
    | .error fault => some (.error fault)
    | .ok (.inl answer) => some (.ok answer)
    | .ok (.inr next) => answerWithin xs turns next

theorem answerWithin_spec {xs : Array α} (long : chunkSize ≤ xs.size) (turns i : Nat)
    (inside : i ≤ xs.size) (enough : (xs.size - i) / (chunkSize - 1) < turns) :
    ∃ answer, inChunksFrom xs i = .ok answer ∧ answerWithin xs turns i = some (.ok answer) ∧
      (answer = true ↔ IncreasingFrom xs i) := by
  induction turns generalizing i with
  | zero => exact absurd enough (Nat.not_lt_zero _)
  | succ turns ih =>
    rw [answerWithin, inChunksFrom]
    rcases turn_spec long inside with ⟨answer, done, sound⟩ | ⟨goesOn, more, same⟩
    · rw [done]
      exact ⟨answer, rfl, rfl, sound⟩
    · rw [goesOn]
      simp only [chunkSize] at enough more ih ⊢
      obtain ⟨answer, done, within, sound⟩ := ih (i + 32) (by omega) (by omega)
      exact ⟨answer, done, within, sound.trans same⟩

theorem increasing_iff_pairwise (values : Array UInt16) :
    Increasing values ↔ values.toList.Pairwise (· < ·) := by
  have : IsTrans UInt16 (· < ·) := ⟨fun _ _ _ => UInt16.lt_trans⟩
  rw [← List.isChain_iff_pairwise, List.isChain_iff_getElem]
  simp only [Array.length_toList, Array.getElem_toList]
  rfl

/-- The check in a number of turns of its loop. -/
def checkWithin (xs : Array α) (turns : Nat) : Option (Checked Bool) :=
  if xs.size < chunkSize then some (.ok (adjacent xs.toList)) else answerWithin xs turns 0

theorem check_spec (xs : Array α) :
    ∃ answer, check xs = .ok answer ∧ checkWithin xs (xs.size / 32 + 1) = some (.ok answer) ∧
      (answer = true ↔ Increasing xs) := by
  have all : IncreasingFrom xs 0 ↔ Increasing xs :=
    ⟨fun pairs k next => pairs k next (Nat.zero_le k), fun pairs k next _ => pairs k next⟩
  rw [check, checkWithin, ← all]
  split
  · have whole := adjacent_extract_iff xs 0 xs.size (Nat.le_refl _)
    rw [Array.extract_size] at whole
    refine ⟨_, rfl, rfl, whole.trans ?_⟩
    exact ⟨fun pairs k next low => pairs k next low next, fun all k next low _ => all k next low⟩
  · rename_i long
    exact answerWithin_spec (Nat.not_lt.mp long) _ 0 (Nat.zero_le _) (Nat.lt_succ_self _)

/-- The check answers for every array: the bound of its loop does not fall below zero, its chunks do
not end past the array, and there is at most one turn for each 32 elements and one more. The answer
is whether every element is smaller than its successor. So a list of values fails its own check
exactly when it is too long or not strictly increasing. -/
theorem check_exact (xs : Array α) :
    (∃ answer, check xs = .ok answer ∧ checkWithin xs (xs.size / 32 + 1) = some (.ok answer) ∧
      (answer = true ↔ Increasing xs)) ∧
      ∀ s : ArraySet,
        (s.checkInvariants = .error .malformedArray ↔
          ArraySet.maxLength < s.values.size ∨ ¬ Increasing s.values) ∧
        (s.checkInvariants = .ok () ↔ s.WellFormed) := by
  refine ⟨check_spec xs, fun s => ?_⟩
  have formed : s.WellFormed ↔ s.values.size ≤ ArraySet.maxLength ∧ Increasing s.values := by
    rw [increasing_iff_pairwise]
    exact ⟨fun formed => ⟨formed.short, formed.ascending⟩, fun both => ⟨both.2, both.1⟩⟩
  obtain ⟨answer, done, -, sound⟩ := check_spec s.values
  rw [ArraySet.checkInvariants, formed, ← sound, ← Nat.not_le, ← not_and_or, done, ok_bind]
  split
  · rename_i short
    cases answer with
    | true =>
      exact ⟨iff_of_false (fun fails => by cases fails) (not_not_intro ⟨short, rfl⟩),
        iff_of_true rfl ⟨short, rfl⟩⟩
    | false =>
      exact ⟨iff_of_true rfl fun both => Bool.false_ne_true both.2,
        iff_of_false (fun passes => by cases passes) fun both => Bool.false_ne_true both.2⟩
  · rename_i long
    exact ⟨iff_of_true rfl fun both => long both.1,
      iff_of_false (fun passes => by cases passes) fun both => long both.1⟩

end Roaring.Ascending
