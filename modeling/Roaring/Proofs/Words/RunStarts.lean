import Roaring.Proofs.Words.Basic
import Roaring.Words.Basic

/-! Counting the maximal ranges of set positions by their first positions. The words of these
positions are again words; so what is known of counting set positions applies to them. -/
namespace Roaring.Words

/-- The set bits of word `i` whose predecessor is clear. -/
def startWord (ws : Words) (i : Nat) : Word :=
  ws.word i &&& ~~~((ws.word i <<< 1) ||| ((if i = 0 then 0 else ws.word (i - 1)) >>> 63))

def startWords (ws : Words) : Words := Vector.ofFn fun i => ws.startWord i

theorem word_startWords (ws : Words) (i : Nat) (inside : i < 1024) :
    ws.startWords.word i = ws.startWord i := by
  rw [word_of_lt _ i inside, startWords, Vector.getElem_ofFn]

theorem runStartsOnto_eq (ws : Words) (n i total : Nat) (inside : i + n ≤ 1024) :
    ws.runStartsOnto n i total = ws.startWords.countOnto n i total := by
  induction n generalizing i total with
  | zero => rfl
  | succ n ih =>
    rw [runStartsOnto, countOnto, word_startWords ws i (by omega), ih _ _ (by omega)]
    rfl

theorem countRuns_eq (ws : Words) : ws.countRuns = ws.startWords.count :=
  runStartsOnto_eq ws 1024 0 0 (Nat.le_refl _)

/-- The bit below the lowest of a word is the highest of the word before. -/
theorem test_predecessors (ws : Words) (p : Nat) :
    ((ws.word (p / 64) <<< 1) |||
        ((if p / 64 = 0 then 0 else ws.word (p / 64 - 1)) >>> 63)).test (p % 64) =
      (decide (0 < p) && ws.test (p - 1)) := by
  have moved : (ws.word (p / 64) <<< 1).test (p % 64) = _ :=
    Word.test_shiftLeft (ws.word (p / 64)) 1 (p % 64) (by omega) (by omega)
  have carried (w : Word) : (w >>> 63).test (p % 64) = _ :=
    Word.test_shiftRight w 63 (p % 64) (by omega) (by omega)
  rw [Word.test_or _ _ _ (by omega), moved, carried]
  rcases Nat.eq_zero_or_pos (p % 64) with lowest | above
  · rw [lowest]
    rcases Nat.eq_zero_or_pos p with rfl | some
    · simp
    · have block : (p - 1) / 64 = p / 64 - 1 := by omega
      have bit : (p - 1) % 64 = 63 := by omega
      rw [if_neg (by omega), test, block, bit]
      simp [some]
  · have block : (p - 1) / 64 = p / 64 := by omega
    have bit : (p - 1) % 64 = p % 64 - 1 := by omega
    have some : 0 < p := by omega
    rw [test, block, bit, decide_eq_false (p := p % 64 + 63 < 64) (by omega)]
    simp [some, Nat.succ_le_iff.mpr above]

theorem test_startWords (ws : Words) (p : Nat) (inside : p < 65536) :
    ws.startWords.test p = (ws.test p && !(decide (0 < p) && ws.test (p - 1))) := by
  rw [test, word_startWords ws _ (by omega), startWord, Word.test_and _ _ _ (by omega), ← test,
    Word.test_not _ _ (by omega), test_predecessors]

/-! Counting only until a limit is passed. -/

theorem le_runStartsOnto (ws : Words) (n i total : Nat) : total ≤ ws.runStartsOnto n i total := by
  induction n generalizing i total with
  | zero => exact Nat.le_refl total
  | succ n ih => exact Nat.le_trans (Nat.le_add_right total _) (ih (i + 1) _)

theorem runStartsOnto_add (ws : Words) (m n i total : Nat) :
    ws.runStartsOnto (m + n) i total = ws.runStartsOnto n (i + m) (ws.runStartsOnto m i total) := by
  induction m generalizing i total with
  | zero => rw [Nat.zero_add, Nat.add_zero, runStartsOnto]
  | succ m ih =>
    rw [Nat.succ_add, runStartsOnto, ih, Nat.add_right_comm, Nat.add_assoc i m 1, runStartsOnto]

theorem runsExceedFrom_iff (ws : Words) (limit chunks i total : Nat) (small : total ≤ limit) :
    ws.runsExceedFrom limit chunks i total = true ↔
      limit < ws.runStartsOnto (64 * chunks) i total := by
  induction chunks generalizing i total with
  | zero => exact iff_of_false Bool.false_ne_true (Nat.not_lt.mpr small)
  | succ chunks ih =>
    have later := le_runStartsOnto ws (64 * chunks) (i + 64) (ws.runStartsOnto 64 i total)
    rw [Nat.mul_succ, Nat.add_comm (64 * chunks), runStartsOnto_add, runsExceedFrom]
    generalize ws.runStartsOnto 64 i total = next at later ⊢
    rw [Bool.or_eq_true, decide_eq_true_eq]
    rcases Nat.lt_or_ge limit next with passed | kept
    · exact iff_of_true (Or.inl passed) (Nat.lt_of_lt_of_le passed later)
    · rw [or_iff_right (Nat.not_lt.mpr kept), ih _ _ kept]

theorem countRunsExceeds_iff (ws : Words) (limit : Nat) :
    ws.countRunsExceeds limit = true ↔ limit < ws.countRuns :=
  runsExceedFrom_iff ws limit 16 0 0 (Nat.zero_le limit)

end Roaring.Words
