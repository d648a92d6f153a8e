import Roaring.Words.Basic
import Roaring.Proofs.Word
import Mathlib.Algebra.BigOperators.Group.Finset.Basic
import Mathlib.Algebra.BigOperators.Group.List.Basic

/-! The 65536 bits of a dense set, described by the positions that test as set: equal tests mean
equal words, the count is the number of set positions, and the list of positions is ascending. -/
namespace Roaring.Words

theorem word_of_le (ws : Words) (i : Nat) (past : 1024 ≤ i) : ws.word i = 0 := by
  simp [word, Vector.getD, Array.getD, Nat.not_lt.mpr past]

theorem word_of_lt (ws : Words) (i : Nat) (inside : i < 1024) : ws.word i = ws[i] := by
  simp [word, Vector.getD, Array.getD, inside]

theorem word_setWord (ws : Words) (i j : Nat) (w : Word) :
    (ws.setWord i w).word j = if i = j ∧ j < 1024 then w else ws.word j := by
  rcases Nat.lt_or_ge j 1024 with inside | past
  · rw [word_of_lt _ j inside, word_of_lt ws j inside, setWord, Vector.getElem_setIfInBounds]
    simp [inside]
  · rw [word_of_le _ j past, word_of_le ws j past]
    simp [Nat.not_lt.mpr past]

theorem word_zipWith (op : Word → Word → Word) (keepsZero : op 0 0 = 0) (a b : Words) (i : Nat) :
    word (Vector.zipWith op a b) i = op (a.word i) (b.word i) := by
  rcases Nat.lt_or_ge i 1024 with inside | past
  · rw [word_of_lt _ i inside, word_of_lt a i inside, word_of_lt b i inside,
      Vector.getElem_zipWith]
  · rw [word_of_le _ i past, word_of_le a i past, word_of_le b i past, keepsZero]

@[simp] theorem word_zero (i : Nat) : zero.word i = 0 := by
  rcases Nat.lt_or_ge i 1024 with inside | past
  · rw [word_of_lt _ i inside, zero, Vector.getElem_replicate]
  · exact word_of_le zero i past

theorem word_full (i : Nat) (inside : i < 1024) : full.word i = ~~~0 := by
  rw [word_of_lt _ i inside, full, Vector.getElem_replicate]

theorem ext_word {a b : Words} (same : ∀ i, i < 1024 → a.word i = b.word i) : a = b := by
  apply Vector.ext
  intro i inside
  rw [← word_of_lt a i inside, ← word_of_lt b i inside, same i inside]

theorem test_of_le (ws : Words) (p : Nat) (past : 65536 ≤ p) : ws.test p = false := by
  rw [test, word_of_le ws _ (by omega), Word.test_zero]

theorem lt_of_test (ws : Words) (p : Nat) (set : ws.test p = true) : p < 65536 := by
  by_contra past
  rw [test_of_le ws p (Nat.le_of_not_lt past)] at set
  contradiction

@[simp] theorem test_empty (p : Nat) : zero.test p = false := by
  rw [test, word_zero, Word.test_zero]

theorem test_full (p : Nat) (inside : p < 65536) : full.test p = true := by
  rw [test, word_full _ (by omega), Word.test_not _ _ (by omega), Word.test_zero]
  rfl

theorem test_block (ws : Words) (i k : Nat) (inside : k < 64) :
    ws.test (64 * i + k) = (ws.word i).test k := by
  rw [test, show (64 * i + k) / 64 = i by omega, show (64 * i + k) % 64 = k by omega]

theorem ext {a b : Words} (same : ∀ p, p < 65536 → a.test p = b.test p) : a = b := by
  apply ext_word
  intro i inside
  apply Word.ext
  intro k low
  rw [← test_block a i k low, ← test_block b i k low, same _ (by omega)]

theorem test_setWord (ws : Words) (i p : Nat) (w : Word) :
    (ws.setWord i w).test p =
      if i = p / 64 ∧ p < 65536 then w.test (p % 64) else ws.test p := by
  rw [test, word_setWord, test]
  have bounds : p / 64 < 1024 ↔ p < 65536 := by omega
  simp only [bounds]
  split
  · rfl
  · rfl

theorem test_setBit (ws : Words) (p q : Nat) (inside : p < 65536) :
    (ws.setBit p).test q = (decide (q = p) || ws.test q) := by
  rw [setBit, test_setWord]
  split
  · rename_i here
    rw [Word.test_or _ _ _ (by omega), Word.test_single _ _ (by omega) (by omega), here.1, test,
      Bool.or_comm]
    congr 1
    rw [Bool.eq_iff_iff, decide_eq_true_eq, decide_eq_true_eq]
    omega
  · rename_i elsewhere
    have other : q ≠ p := by
      rintro rfl
      exact elsewhere ⟨rfl, inside⟩
    simp [other]

theorem test_zipWith (op : Word → Word → Word) (bit : Bool → Bool → Bool)
    (keepsZero : op 0 0 = 0)
    (bits : ∀ w x i, i < 64 → (op w x).test i = bit (w.test i) (x.test i))
    (a b : Words) (p : Nat) :
    test (Vector.zipWith op a b) p = bit (a.test p) (b.test p) := by
  rw [test, word_zipWith op keepsZero, bits _ _ _ (by omega), test, test]

/-! Counting. -/

theorem countOnto_eq (ws : Words) (n i total : Nat) :
    ws.countOnto n i total = total + ∑ k ∈ Finset.range n, (ws.word (i + k)).popCount := by
  induction n generalizing i total with
  | zero => simp [countOnto]
  | succ n ih =>
    rw [countOnto, ih, Finset.sum_range_succ']
    simp only [Nat.add_zero, Nat.add_assoc, Nat.add_comm 1]
    omega

theorem count_eq_sum (ws : Words) :
    ws.count = ∑ k ∈ Finset.range 1024, (ws.word k).popCount := by
  simp [count, countOnto_eq]

theorem foldl_popCount (ws : Words) :
    ws.toArray.foldl (fun n w => n + Word.popCount w) 0 = ws.count := by
  have from_ (n i total : Nat) (whole : i + n = 1024) :
      (ws.toList.drop i).foldl (fun n w => n + Word.popCount w) total = ws.countOnto n i total := by
    induction n generalizing i total with
    | zero =>
      rw [List.drop_eq_nil_of_le (by rw [Vector.length_toList]; omega), countOnto]
      rfl
    | succ n ih =>
      have inside : i < 1024 := by omega
      rw [List.drop_eq_getElem_cons (by rw [Vector.length_toList]; exact inside), List.foldl_cons,
        ih _ _ (by omega), countOnto, Vector.getElem_toList, word_of_lt ws i inside]
  rw [← Array.foldl_toList]
  exact from_ 1024 0 0 rfl

/-- Replacing one word moves the count by the difference of the two words. -/
theorem count_setWord (ws : Words) (i : Nat) (w : Word) (inside : i < 1024) :
    (ws.setWord i w).count + (ws.word i).popCount = ws.count + w.popCount := by
  have member : i ∈ Finset.range 1024 := Finset.mem_range.mpr inside
  rw [count_eq_sum, count_eq_sum, ← Finset.add_sum_erase _ _ member,
    ← Finset.add_sum_erase _ (fun k => (ws.word k).popCount) member, word_setWord]
  have rest : ∑ k ∈ (Finset.range 1024).erase i, ((ws.setWord i w).word k).popCount =
      ∑ k ∈ (Finset.range 1024).erase i, (ws.word k).popCount := by
    apply Finset.sum_congr rfl
    intro k other
    rw [word_setWord, if_neg]
    intro same
    exact (Finset.mem_erase.mp other).1 same.1.symm
  rw [rest]
  simp only [inside, and_self, if_true]
  omega

/-- The set positions among the words up to the `n`th are counted word by word. -/
theorem countP_range_words (ws : Words) (n : Nat) :
    (List.range (64 * n)).countP ws.test = ∑ k ∈ Finset.range n, (ws.word k).popCount := by
  induction n with
  | zero => rfl
  | succ n ih =>
    rw [Finset.sum_range_succ, ← ih, Nat.mul_succ, List.range_add, List.countP_append,
      List.countP_map, Word.popCount_eq_countP]
    congr 1
    apply List.countP_congr
    intro k member
    have low := List.mem_range.mp member
    rw [Function.comp_apply, test_block ws n k low]

theorem count_eq_countP (ws : Words) : ws.count = (List.range 65536).countP ws.test := by
  rw [count_eq_sum, ← countP_range_words]

theorem count_le (ws : Words) : ws.count ≤ 65536 := by
  rw [count_eq_countP]
  simpa using List.countP_le_length (p := ws.test) (l := List.range 65536)

@[simp] theorem count_zero : zero.count = 0 := by
  rw [count_eq_countP, List.countP_eq_zero]
  simp

theorem count_full : full.count = 65536 := by
  rw [count_eq_countP, List.countP_eq_length.mpr, List.length_range]
  intro p member
  exact test_full p (List.mem_range.mp member)

/-! The list of set positions. -/

theorem toList_positions (ws : Words) :
    ws.positions.toList = ((List.range 65536).filter ws.test).map Nat.toUInt16 := by
  simp [positions, Array.toList_range]

theorem size_positions (ws : Words) : ws.positions.size = ws.count := by
  rw [← Array.length_toList, toList_positions, List.length_map, ← List.countP_eq_length_filter,
    count_eq_countP]

theorem mem_positions (ws : Words) (v : UInt16) : v ∈ ws.positions ↔ ws.test v.toNat = true := by
  rw [← Array.mem_toList_iff, toList_positions, List.mem_map]
  constructor
  · rintro ⟨p, member, rfl⟩
    obtain ⟨inside, set⟩ := List.mem_filter.mp member
    have low := List.mem_range.mp inside
    rwa [toNat_toUInt16 low]
  · intro set
    exact ⟨v.toNat, List.mem_filter.mpr ⟨List.mem_range.mpr v.toNat_lt, set⟩, by simp⟩

theorem positions_ascending (ws : Words) : ws.positions.toList.Pairwise (· < ·) := by
  rw [toList_positions, List.pairwise_map]
  apply List.Pairwise.imp_of_mem (R := (· < ·))
  · intro p q inP inQ less
    have lowP := List.mem_range.mp (List.mem_filter.mp inP).1
    have lowQ := List.mem_range.mp (List.mem_filter.mp inQ).1
    rw [UInt16.lt_iff_toNat_lt]
    simpa [Nat.mod_eq_of_lt lowP, Nat.mod_eq_of_lt lowQ] using less
  · exact List.pairwise_lt_range.filter _

end Roaring.Words
