import Roaring.Proofs.Words.Basic

/-! Rank, select and counts of windows. A word stands for the 64 positions from its first one on, so
that counting through words is counting along the list of all positions, and the position asked for
by number is the element of that number in the list of set positions. -/
namespace Roaring

namespace Word

theorem popCount_and (w x : Word) :
    (w &&& x).popCount = (List.range 64).countP fun k => w.test k && x.test k := by
  rw [popCount_eq_countP]
  apply List.countP_congr
  intro k member
  rw [test_and w x k (List.mem_range.mp member)]

/-- The bits that a shift moves out at the top are not counted. -/
theorem popCount_shiftLeft (w : Word) (k : Nat) (amount : k < 64) :
    (w <<< k.toUInt64).popCount = (List.range (64 - k)).countP w.test := by
  have parts : List.range 64 = List.range k ++ (List.range (64 - k)).map (k + ·) := by
    rw [← List.range_add, Nat.add_sub_cancel' (Nat.le_of_lt amount)]
  have low : (List.range k).countP (w <<< k.toUInt64).test = 0 := by
    rw [List.countP_eq_zero]
    intro i member
    have below := List.mem_range.mp member
    rw [test_shiftLeft w k i amount (by omega)]
    simp [Nat.not_le.mpr below]
  rw [popCount_eq_countP, parts, List.countP_append, low, Nat.zero_add, List.countP_map]
  apply List.countP_congr
  intro i member
  have below := List.mem_range.mp member
  rw [Function.comp_apply, test_shiftLeft w k (k + i) amount (by omega)]
  simp

/-- The scan drops bits at the bottom and counts off the set ones among them. -/
theorem nthFrom_spec (n : Nat) (w : Word) (k pos i : Nat) (inside : n ≤ 64)
    (found : ((List.range n).filter w.test)[k]? = some i) : nthFrom n w k pos = pos + i := by
  induction n generalizing w k pos i with
  | zero => simp at found
  | succ n ih =>
    have rest : (List.range n).filter (w.test ∘ Nat.succ) = (List.range n).filter (w >>> 1).test := by
      apply List.filter_congr
      intro j member
      have below := List.mem_range.mp member
      rw [test_halved w j (by omega)]
      rfl
    have lowest : (w &&& 1 != 0) = w.test 0 := by
      rw [test]
      simp
    rw [List.range_succ_eq_map, List.filter_cons, List.filter_map, rest] at found
    rw [nthFrom.eq_def]
    simp only [lowest]
    cases set : w.test 0 with
    | false =>
      rw [set, if_neg Bool.false_ne_true, List.getElem?_map, Option.map_eq_some_iff] at found
      obtain ⟨j, later, rfl⟩ := found
      rw [if_neg Bool.false_ne_true, ih (w >>> 1) k (pos + 1) j (by omega) later]
      omega
    | true =>
      rw [set, if_pos rfl] at found
      rw [if_pos rfl]
      cases k with
      | zero =>
        rw [List.getElem?_cons_zero, Option.some.injEq] at found
        rw [← found]
        rfl
      | succ k =>
        rw [List.getElem?_cons_succ, List.getElem?_map, Option.map_eq_some_iff] at found
        obtain ⟨j, later, rfl⟩ := found
        simp only
        rw [ih (w >>> 1) k (pos + 1) j (by omega) later]
        omega

end Word

/-- Of a list of consecutive positions, only those of a window count. -/
theorem countP_range'_window (p : Nat → Bool) (first count lo hi : Nat) (below : first ≤ lo)
    (ordered : lo ≤ hi) (above : hi ≤ first + count) :
    (List.range' first count).countP (fun n => p n && decide (lo ≤ n ∧ n < hi)) =
      (List.range' lo (hi - lo)).countP p := by
  obtain ⟨before, rfl⟩ := Nat.exists_eq_add_of_le below
  obtain ⟨within, rfl⟩ := Nat.exists_eq_add_of_le ordered
  obtain ⟨behind, parts⟩ := Nat.exists_eq_add_of_le above
  have split : List.range' first count = List.range' first before ++
      (List.range' (first + before) within ++
        List.range' (first + before + within) behind) := by
    rw [List.range'_append_1, List.range'_append_1]
    congr 1
    omega
  have early : (List.range' first before).countP
      (fun n => p n && decide (first + before ≤ n ∧ n < first + before + within)) = 0 := by
    rw [List.countP_eq_zero]
    intro n member
    have bounds := List.mem_range'_1.mp member
    simp
    omega
  have late : (List.range' (first + before + within) behind).countP
      (fun n => p n && decide (first + before ≤ n ∧ n < first + before + within)) = 0 := by
    rw [List.countP_eq_zero]
    intro n member
    have bounds := List.mem_range'_1.mp member
    simp
    omega
  rw [split, List.countP_append, List.countP_append, early, late, Nat.zero_add, Nat.add_zero,
    Nat.add_sub_cancel_left]
  apply List.countP_congr
  intro n member
  have bounds := List.mem_range'_1.mp member
  simp [bounds]

namespace Words

/-- The positions of a word, on their own and among those of the words behind it. -/
theorem range'_words (i n : Nat) : List.range' (64 * i) (64 * (n + 1)) =
    (List.range 64).map (64 * i + ·) ++ List.range' (64 * (i + 1)) (64 * n) := by
  rw [← List.range'_eq_map_range, show 64 * (i + 1) = 64 * i + 64 by omega, List.range'_append_1]
  congr 1
  omega

theorem filter_word (ws : Words) (i : Nat) :
    ((List.range 64).map (64 * i + ·)).filter ws.test =
      ((List.range 64).filter (ws.word i).test).map (64 * i + ·) := by
  rw [List.filter_map]
  congr 1
  apply List.filter_congr
  intro k member
  exact test_block ws i k (List.mem_range.mp member)

theorem rank_eq (ws : Words) (p : Nat) : ws.rank p = (List.range (p + 1)).countP ws.test := by
  have parts : List.range (p + 1) =
      List.range (64 * (p / 64)) ++ (List.range (p % 64 + 1)).map (64 * (p / 64) + ·) := by
    rw [← List.range_add]
    congr 1
    omega
  have inside : 64 - (63 - p % 64) = p % 64 + 1 := by omega
  rw [rank, countOnto_eq, Nat.zero_add, Word.popCount_shiftLeft _ _ (by omega), inside, parts,
    List.countP_append, List.countP_map, countP_range_words]
  simp only [Nat.zero_add]
  congr 1
  apply List.countP_congr
  intro k member
  have below := List.mem_range.mp member
  rw [Function.comp_apply, test_block ws _ k (by omega)]

theorem selectFrom_eq (ws : Words) (n i k : Nat) :
    ws.selectFrom n i k = ((List.range' (64 * i) (64 * n)).filter ws.test)[k]? := by
  induction n generalizing i k with
  | zero => simp [selectFrom]
  | succ n ih =>
    have held : (((List.range 64).filter (ws.word i).test).map (64 * i + ·)).length =
        (ws.word i).popCount := by
      rw [List.length_map, ← List.countP_eq_length_filter, Word.popCount_eq_countP]
    rw [selectFrom, range'_words, List.filter_append, filter_word, List.getElem?_append, held]
    split
    · rename_i here
      rw [← held, List.length_map] at here
      have found := List.getElem?_eq_getElem here
      rw [List.getElem?_map, found, Word.nthSet, Word.nthFrom_spec 64 _ k 0 _ (Nat.le_refl _) found,
        Nat.zero_add]
      rfl
    · exact ih (i + 1) _

theorem select_eq (ws : Words) (k : Nat) :
    ws.select k = ((List.range 65536).filter ws.test)[k]? := by
  rw [select, selectFrom_eq, List.range_eq_range']

end Words

end Roaring
