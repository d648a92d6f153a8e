import Roaring.Word

/-! The words of 64 bits, described by their bits: what each operation tests, and how many bits are
counted. Everything about dense sets rests on these facts and on no other property of words. -/
namespace Roaring

theorem toNat_toUInt16 {n : Nat} (small : n < 65536) : n.toUInt16.toNat = n :=
  UInt16.toNat_ofNat_of_lt small

namespace Word

theorem toNat_amount (i : Nat) (inside : i < 64) : i.toUInt64.toNat % 64 = i := by
  change i % 2 ^ 64 % 64 = i
  omega

theorem test_eq_testBit (w : Word) (i : Nat) (inside : i < 64) : w.test i = w.toNat.testBit i := by
  have zero (x : UInt64) : (x != 0) = (x.toNat != 0) := by
    rw [Bool.eq_iff_iff, bne_iff_ne, bne_iff_ne, ne_eq, ne_eq, ← UInt64.toNat_inj]
    rfl
  rw [test, zero, UInt64.toNat_and, UInt64.toNat_shiftRight, toNat_amount i inside, Nat.testBit,
    Nat.and_comm]
  rfl

theorem ext {w x : Word} (same : ∀ i, i < 64 → w.test i = x.test i) : w = x := by
  apply UInt64.toNat_inj.mp
  apply Nat.eq_of_testBit_eq
  intro i
  rcases Nat.lt_or_ge i 64 with inside | outside
  · rw [← test_eq_testBit w i inside, ← test_eq_testBit x i inside, same i inside]
  · have large : 2 ^ 64 ≤ 2 ^ i := Nat.pow_le_pow_right (by omega) outside
    rw [Nat.testBit_lt_two_pow (Nat.lt_of_lt_of_le w.toNat_lt large),
      Nat.testBit_lt_two_pow (Nat.lt_of_lt_of_le x.toNat_lt large)]

@[simp] theorem test_zero (i : Nat) : test 0 i = false := by
  simp [test]

theorem test_and (w x : Word) (i : Nat) (inside : i < 64) :
    (w &&& x).test i = (w.test i && x.test i) := by
  simp only [test_eq_testBit _ i inside, UInt64.toNat_and, Nat.testBit_and]

theorem test_or (w x : Word) (i : Nat) (inside : i < 64) :
    (w ||| x).test i = (w.test i || x.test i) := by
  simp only [test_eq_testBit _ i inside, UInt64.toNat_or, Nat.testBit_or]

theorem test_xor (w x : Word) (i : Nat) (inside : i < 64) :
    (w ^^^ x).test i = (w.test i ^^ x.test i) := by
  simp only [test_eq_testBit _ i inside, UInt64.toNat_xor, Nat.testBit_xor]

theorem test_not (w : Word) (i : Nat) (inside : i < 64) : (~~~w).test i = !w.test i := by
  simp only [test_eq_testBit _ i inside, UInt64.toNat_not]
  rw [show UInt64.size - 1 - w.toNat = 2 ^ 64 - (w.toNat + 1) by rw [UInt64.size]; omega,
    Nat.testBit_two_pow_sub_succ w.toNat_lt]
  simp [inside]

theorem test_shiftRight (w : Word) (k i : Nat) (amount : k < 64) (inside : i < 64) :
    (w >>> k.toUInt64).test i = (decide (i + k < 64) && w.test (i + k)) := by
  rw [test_eq_testBit _ i inside, UInt64.toNat_shiftRight, toNat_amount k amount,
    Nat.testBit_shiftRight, Nat.add_comm]
  rcases Nat.lt_or_ge (i + k) 64 with low | high
  · rw [test_eq_testBit w (i + k) low]
    simp [low]
  · have large : 2 ^ 64 ≤ 2 ^ (i + k) := Nat.pow_le_pow_right (by omega) high
    rw [Nat.testBit_lt_two_pow (Nat.lt_of_lt_of_le w.toNat_lt large)]
    simp [Nat.not_lt.mpr high]

theorem test_shiftLeft (w : Word) (k i : Nat) (amount : k < 64) (inside : i < 64) :
    (w <<< k.toUInt64).test i = (decide (k ≤ i) && w.test (i - k)) := by
  rw [test_eq_testBit _ i inside, UInt64.toNat_shiftLeft, toNat_amount k amount,
    Nat.testBit_mod_two_pow, Nat.testBit_shiftLeft, test_eq_testBit w (i - k) (by omega)]
  simp [inside]

/-- Half a word is the word moved down by one. -/
theorem test_halved (w : Word) (i : Nat) (inside : i + 1 < 64) :
    (w >>> 1).test i = w.test (i + 1) := by
  have moved := test_shiftRight w 1 i (by omega) (by omega)
  simpa [inside] using moved

theorem test_single (k i : Nat) (amount : k < 64) (inside : i < 64) :
    (single k).test i = decide (i = k) := by
  rw [single, test_shiftLeft 1 k i amount inside, test_eq_testBit 1 (i - k) (by omega)]
  change (decide (k ≤ i) && (1 : Nat).testBit (i - k)) = _
  rw [Bool.eq_iff_iff, Bool.and_eq_true, decide_eq_true_eq, decide_eq_true_eq,
    Nat.testBit_one_eq_true_iff_self_eq_zero]
  omega

theorem or_single_eq_iff (w : Word) (k : Nat) (inside : k < 64) :
    w ||| single k = w ↔ w.test k = true := by
  constructor
  · intro same
    rw [← same, test_or _ _ _ inside, test_single _ _ inside inside, decide_eq_true rfl, Bool.or_true]
  · intro set
    apply ext
    intro i low
    rw [test_or _ _ _ low, test_single _ _ inside low, Bool.or_eq_left_iff_imp, decide_eq_true_eq]
    rintro rfl
    exact set

theorem and_not_single_eq_iff (w : Word) (k : Nat) (inside : k < 64) :
    w &&& ~~~single k = w ↔ w.test k = false := by
  constructor
  · intro same
    rw [← same, test_and _ _ _ inside, test_not _ _ inside, test_single _ _ inside inside,
      decide_eq_true rfl, Bool.not_true, Bool.and_false]
  · intro clear
    apply ext
    intro i low
    rw [test_and _ _ _ low, test_not _ _ low, test_single _ _ inside low, Bool.and_eq_left_iff_imp,
      Bool.not_eq_true', decide_eq_false_iff_not]
    rintro set rfl
    rw [clear] at set
    contradiction

theorem test_ones (k i : Nat) (inside : i < 64) : (ones k).test i = decide (i < k) := by
  rw [ones]
  split
  · simp_all
  · rw [test_shiftRight _ (64 - k) i (by omega) inside, Bool.eq_iff_iff, Bool.and_eq_true,
      decide_eq_true_eq, decide_eq_true_eq]
    constructor
    · intro both
      omega
    · intro below
      have low : i + (64 - k) < 64 := by omega
      exact ⟨low, by rw [test_not 0 _ low, test_zero]; rfl⟩

theorem test_between (lo hi i : Nat) (inside : i < 64) :
    (between lo hi).test i = (decide (lo ≤ i) && decide (i < hi)) := by
  rw [between, test_and _ _ i inside, test_not _ i inside, test_ones hi i inside,
    test_ones lo i inside, Bool.eq_iff_iff]
  simp only [Bool.and_eq_true, Bool.not_eq_true', decide_eq_true_eq, decide_eq_false_iff_not]
  omega

theorem lowest_bit (w : Word) : (w &&& 1).toNat = (w.test 0).toNat := by
  rw [test_eq_testBit w 0 (by omega), Nat.testBit_zero, UInt64.toNat_and]
  change w.toNat &&& 1 = _
  rw [Nat.and_one_is_mod]
  rcases Nat.mod_two_eq_zero_or_one w.toNat with even | odd
  · simp [even]
  · simp [odd]

/-- The counting loop looks at the bits from the lowest on; the word that is left when it stops
early has none. -/
theorem countLow_eq (n : Nat) (w : Word) (acc : Nat) (inside : n ≤ 64) :
    countLow n w acc = acc + (List.range n).countP w.test := by
  induction n generalizing w acc with
  | zero => simp [countLow]
  | succ n ih =>
    rw [countLow]
    split
    · rename_i spent
      have none : w = 0 := by simpa using spent
      subst none
      have clear : ∀ i ∈ List.range (n + 1), ¬ test 0 i = true := by simp
      rw [List.countP_eq_zero.mpr clear, Nat.add_zero]
    · rw [ih _ _ (by omega), lowest_bit, List.range_succ_eq_map, List.countP_cons,
        List.countP_map]
      have rest : (List.range n).countP (w >>> 1).test =
          (List.range n).countP (w.test ∘ Nat.succ) := by
        apply List.countP_congr
        intro i member
        have below := List.mem_range.mp member
        rw [test_halved w i (by omega)]
        rfl
      rw [rest]
      cases w.test 0 with
      | false => simp
      | true =>
        simp only [Bool.toNat_true, if_true]
        omega

theorem popCount_eq_countP (w : Word) : w.popCount = (List.range 64).countP w.test := by
  rw [popCount, countLow_eq 64 w 0 (Nat.le_refl _), Nat.zero_add]

theorem popCount_le (w : Word) : w.popCount ≤ 64 := by
  rw [popCount_eq_countP]
  simpa using List.countP_le_length (p := w.test) (l := List.range 64)

/-! The ends of a word. -/

theorem zerosBelow_spec (n : Nat) (w : Word) (acc : Nat) (inside : n ≤ 64) :
    ∃ z, zerosBelow n w acc = acc + z ∧ z ≤ n ∧ (∀ i, i < z → w.test i = false) ∧
      (z < n → w.test z = true) := by
  induction n generalizing w acc with
  | zero => exact ⟨0, rfl, Nat.le_refl _, by omega, by omega⟩
  | succ n ih =>
    have lowest : (w &&& 1 != 0) = w.test 0 := by
      rw [test]
      simp
    rw [zerosBelow, lowest]
    cases set : w.test 0 with
    | true => exact ⟨0, rfl, Nat.zero_le _, by omega, fun _ => set⟩
    | false =>
      obtain ⟨z, value, bound, clear, stop⟩ := ih (w >>> 1) (acc + 1) (by omega)
      refine ⟨z + 1, ?_, by omega, ?_, ?_⟩
      · simp only [Bool.false_eq_true, if_false, value]
        omega
      · intro i below
        cases i with
        | zero => exact set
        | succ i => rw [← test_halved w i (by omega), clear i (by omega)]
      · intro short
        rw [← test_halved w z (by omega), stop (by omega)]

theorem trailingZeros_spec (w : Word) (nonzero : w ≠ 0) :
    w.trailingZeros < 64 ∧ w.test w.trailingZeros = true ∧
      ∀ i, i < w.trailingZeros → w.test i = false := by
  obtain ⟨z, value, bound, clear, stop⟩ := zerosBelow_spec 64 w 0 (Nat.le_refl _)
  have short : z < 64 := by
    refine Nat.lt_of_not_le fun long => nonzero (ext fun i inside => ?_)
    rw [clear i (by omega), test_zero]
  rw [trailingZeros, value, Nat.zero_add]
  exact ⟨short, stop short, clear⟩

/-- The bits up to the first clear one. -/
theorem trailingOnes_spec (w : Word) (notFull : w ≠ ~~~0) :
    (~~~w).trailingZeros < 64 ∧ w.test (~~~w).trailingZeros = false ∧
      ∀ i, i < (~~~w).trailingZeros → w.test i = true := by
  have some : ~~~w ≠ 0 := by
    intro none
    apply notFull
    rw [← none, UInt64.not_not]
  obtain ⟨inside, clear, set⟩ := trailingZeros_spec (~~~w) some
  rw [test_not _ _ inside, Bool.not_eq_true'] at clear
  refine ⟨inside, clear, fun i less => ?_⟩
  have unset := set i less
  rwa [test_not _ _ (by omega), Bool.not_eq_false'] at unset

/-- Subtracting one clears the lowest set bit and sets those below it, which were clear. -/
theorem testBit_pred (n t i : Nat) (set : n.testBit t = true)
    (clear : ∀ j < t, n.testBit j = false) :
    (n - 1).testBit i = (decide (i < t) || decide (t < i) && n.testBit i) := by
  have lowest : n % 2 ^ (t + 1) = 2 ^ t := by
    apply Nat.eq_of_testBit_eq
    intro j
    rw [Nat.testBit_mod_two_pow, Nat.testBit_two_pow]
    rcases Nat.lt_trichotomy j t with below | rfl | above
    · simp [clear j below, show t ≠ j by omega]
    · simp [set]
    · simp [show ¬ j < t + 1 by omega, show t ≠ j by omega]
  have split := Nat.div_add_mod n (2 ^ (t + 1))
  have weight := Nat.two_pow_pos t
  have less : 2 ^ t < 2 ^ (t + 1) := Nat.pow_lt_pow_right (by omega) (Nat.lt_succ_self t)
  rw [lowest] at split
  rw [← split, Nat.add_sub_assoc weight, Nat.testBit_two_pow_mul_add _ (by omega),
    Nat.testBit_two_pow_mul_add _ less]
  by_cases low : i < t + 1
  · rw [if_pos low, if_pos low, Nat.testBit_two_pow_sub_one]
    simp [show ¬ t < i by omega]
  · rw [if_neg low, if_neg low]
    simp [show ¬ i < t by omega, show t < i by omega]

theorem toNat_pred (w : Word) (nonzero : w ≠ 0) : (w - 1).toNat = w.toNat - 1 := by
  apply UInt64.toNat_sub_of_le
  rw [UInt64.le_iff_toNat_le]
  change 1 ≤ w.toNat
  refine Nat.pos_of_ne_zero fun zero => nonzero (UInt64.toNat_inj.mp zero)

theorem test_pred (w : Word) (nonzero : w ≠ 0) (i : Nat) (inside : i < 64) :
    (w - 1).test i =
      (decide (i < w.trailingZeros) || decide (w.trailingZeros < i) && w.test i) := by
  obtain ⟨bound, set, clear⟩ := trailingZeros_spec w nonzero
  rw [test_eq_testBit _ i inside, test_eq_testBit _ i inside, toNat_pred w nonzero]
  refine testBit_pred _ _ i ?_ fun j below => ?_
  · rw [← test_eq_testBit w _ bound, set]
  · rw [← test_eq_testBit w j (Nat.lt_trans below bound), clear j below]

theorem test_dropLowest (w : Word) (nonzero : w ≠ 0) (i : Nat) (inside : i < 64) :
    (w &&& (w - 1)).test i = (w.test i && decide (i ≠ w.trailingZeros)) := by
  obtain ⟨-, set, clear⟩ := trailingZeros_spec w nonzero
  rw [test_and _ _ i inside, test_pred w nonzero i inside]
  rcases Nat.lt_trichotomy i w.trailingZeros with below | rfl | above
  · simp [clear i below]
  · simp
  · simp [above, Nat.ne_of_gt above, Nat.lt_asymm above]

/-- Below its lowest set bit the word is filled up. -/
theorem test_fillBelow (w : Word) (nonzero : w ≠ 0) (i : Nat) (inside : i < 64) :
    (w ||| (w - 1)).test i = (w.test i || decide (i ≤ w.trailingZeros)) := by
  obtain ⟨-, set, clear⟩ := trailingZeros_spec w nonzero
  rw [test_or _ _ i inside, test_pred w nonzero i inside]
  rcases Nat.lt_trichotomy i w.trailingZeros with below | rfl | above
  · simp [below, Nat.le_of_lt below]
  · simp [set]
  · simp [above, Nat.not_le_of_lt above, Nat.lt_asymm above]

theorem zerosAbove_spec (n : Nat) (w : Word) (acc : Nat) (inside : n ≤ 64) :
    ∃ z, zerosAbove n w acc = acc + z ∧ z ≤ n ∧ (∀ i, i < z → w.test (63 - i) = false) ∧
      (z < n → w.test (63 - z) = true) := by
  induction n generalizing w acc with
  | zero => exact ⟨0, rfl, Nat.le_refl _, by omega, by omega⟩
  | succ n ih =>
    have highest : (w >>> 63 != 0) = w.test 63 := by
      have one : (w >>> 63) &&& (1 : Word) = w >>> 63 := by
        apply ext
        intro i low
        have moved := test_shiftRight w 63 i (by omega) low
        rw [test_and _ _ _ low]
        change ((w >>> (63 : Nat).toUInt64).test i && _) = (w >>> (63 : Nat).toUInt64).test i
        rw [moved]
        cases i with
        | zero =>
          rw [test_eq_testBit 1 0 (by omega)]
          simp
        | succ i => simp [show ¬ i + 1 + 63 < 64 by omega]
      change _ = ((w >>> 63) &&& (1 : Word) != 0)
      rw [one]
    have doubled (i : Nat) (low : i + 1 < 64) : (w <<< 1).test (i + 1) = w.test i := by
      have moved := test_shiftLeft w 1 (i + 1) (by omega) low
      simpa using moved
    rw [zerosAbove, highest]
    cases set : w.test 63 with
    | true => exact ⟨0, rfl, Nat.zero_le _, by omega, fun _ => set⟩
    | false =>
      obtain ⟨z, value, bound, clear, stop⟩ := ih (w <<< 1) (acc + 1) (by omega)
      refine ⟨z + 1, ?_, by omega, ?_, ?_⟩
      · simp only [Bool.false_eq_true, if_false, value]
        omega
      · intro i below
        cases i with
        | zero => exact set
        | succ i =>
          have moved := doubled (63 - (i + 1)) (by omega)
          rw [show 63 - (i + 1) + 1 = 63 - i by omega, clear i (by omega)] at moved
          exact moved.symm
      · intro short
        have moved := doubled (63 - (z + 1)) (by omega)
        rw [show 63 - (z + 1) + 1 = 63 - z by omega, stop (by omega)] at moved
        exact moved.symm

theorem leadingZeros_spec (w : Word) (nonzero : w ≠ 0) :
    w.leadingZeros < 64 ∧ w.test (63 - w.leadingZeros) = true ∧
      ∀ i, 63 - w.leadingZeros < i → i < 64 → w.test i = false := by
  obtain ⟨z, value, bound, clear, stop⟩ := zerosAbove_spec 64 w 0 (Nat.le_refl _)
  have short : z < 64 := by
    refine Nat.lt_of_not_le fun long => nonzero (ext fun i inside => ?_)
    have none := clear (63 - i) (by omega)
    rw [show 63 - (63 - i) = i by omega] at none
    rw [none, test_zero]
  rw [leadingZeros, value, Nat.zero_add]
  refine ⟨short, stop short, ?_⟩
  intro i above inside
  have none := clear (63 - i) (by omega)
  rwa [show 63 - (63 - i) = i by omega] at none

end Word

end Roaring
