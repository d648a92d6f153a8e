import Roaring.BitSet
import Roaring.Proofs.Words.Rank
import Roaring.Proofs.Run.Canonical
import Mathlib.Tactic.Tauto

/-! Dense sets, described by the positions that test as set. Every update of a well-formed set says
which positions it leaves set, and that the kept cardinality is still the number of set bits. -/
namespace Roaring.BitSet

instance : Membership UInt16 BitSet := ⟨fun b v => b.words.test v.toNat = true⟩

instance (b : BitSet) (v : UInt16) : Decidable (v ∈ b) :=
  inferInstanceAs (Decidable (b.words.test v.toNat = true))

theorem mem_def (b : BitSet) (v : UInt16) : v ∈ b ↔ b.words.test v.toNat = true := Iff.rfl

theorem contains_iff (b : BitSet) (v : UInt16) : b.contains v = true ↔ v ∈ b := Iff.rfl

theorem WellFormed.values_eq {b : BitSet} (formed : b.WellFormed) : b.values = b.words.positions := by
  have size : b.cardinality = b.words.positions.size :=
    formed.trans (Words.size_positions b.words).symm
  simp [values, size]

theorem WellFormed.mem_values {b : BitSet} (formed : b.WellFormed) (v : UInt16) :
    v ∈ b.values ↔ v ∈ b := by
  rw [formed.values_eq, Words.mem_positions, mem_def]

theorem WellFormed.size_values {b : BitSet} (formed : b.WellFormed) :
    b.values.size = b.cardinality := by
  rw [formed.values_eq, Words.size_positions, ← formed]

theorem WellFormed.values_ascending {b : BitSet} (formed : b.WellFormed) :
    b.values.toList.Pairwise (· < ·) := by
  rw [formed.values_eq]
  exact b.words.positions_ascending

theorem words_eq {a b : BitSet} (same : ∀ v, v ∈ a ↔ v ∈ b) : a.words = b.words := by
  apply Words.ext
  intro p inside
  have value : p.toUInt16.toNat = p := toNat_toUInt16 inside
  have here := same p.toUInt16
  rwa [mem_def, mem_def, value, ← Bool.eq_iff_iff] at here

theorem eq_of_mem_iff {a b : BitSet} (same : ∀ v, v ∈ a ↔ v ∈ b)
    (count : a.cardinality = b.cardinality) : a = b := by
  have words := words_eq same
  have cached : a.cached = b.cached := UInt64.toNat_inj.mp count
  obtain ⟨_, _⟩ := a
  obtain ⟨_, _⟩ := b
  rw [BitSet.mk.injEq]
  exact ⟨words, cached⟩

theorem WellFormed.isEmpty_iff {b : BitSet} (formed : b.WellFormed) :
    b.isEmpty = true ↔ b.words.count = 0 := by
  rw [isEmpty, beq_iff_eq, ← UInt64.toNat_inj, ← formed]
  rfl

theorem toNat_toUInt64 (n : Nat) (small : n < 2 ^ 64) : n.toUInt64.toNat = n := by
  simpa using small

theorem wellFormed_ofWords (ws : Words) : (ofWords ws).WellFormed :=
  toNat_toUInt64 _ (Nat.lt_of_le_of_lt ws.count_le (by decide))

theorem wellFormed_empty : empty.WellFormed := Words.count_zero.symm

theorem wellFormed_full : full.WellFormed := Words.count_full.symm

theorem WellFormed.setWord {b : BitSet} (formed : b.WellFormed) (i : Nat) (w : Word)
    (inside : i < 1024) : (b.setWord i w).WellFormed := by
  have moved := Words.count_setWord b.words i w inside
  have few := Word.popCount_le w
  have few' := Word.popCount_le (b.words.word i)
  have bound := b.words.count_le
  have bound' := (b.words.setWord i w).count_le
  have kept : b.cached.toNat = b.words.count := formed
  change (b.cached + w.popCount.toUInt64 - (b.words.word i).popCount.toUInt64).toNat =
    (b.words.setWord i w).count
  rw [UInt64.toNat_sub, UInt64.toNat_add, toNat_toUInt64 _ (by omega), toNat_toUInt64 _ (by omega)]
  omega

@[simp] theorem words_setWord (b : BitSet) (i : Nat) (w : Word) :
    (b.setWord i w).words = b.words.setWord i w := rfl

theorem setWord_word (b : BitSet) (i : Nat) : b.setWord i (b.words.word i) = b := by
  have words : b.words.setWord i (b.words.word i) = b.words := by
    apply Words.ext
    intro p _
    rw [Words.test_setWord]
    split
    · rename_i here
      rw [here.1, Words.test]
    · rfl
  rw [setWord, words, UInt64.add_sub_cancel]

/-! Single values. -/

theorem insert_spec (b : BitSet) (v : UInt16) (formed : b.WellFormed) :
    (b.insert v).1.WellFormed ∧ (b.insert v).2 = !b.words.test v.toNat ∧
      ∀ p, (b.insert v).1.words.test p = (decide (p = v.toNat) || b.words.test p) := by
  have low := v.toNat_lt
  refine ⟨formed.setWord _ _ (by omega), ?_, fun p => Words.test_setBit b.words v.toNat p low⟩
  rw [Bool.eq_iff_iff, insert, bne_iff_ne, ne_comm, ne_eq, Word.or_single_eq_iff _ _ (by omega),
    Bool.not_eq_true', Bool.not_eq_true]
  rfl

theorem insert_of_mem (b : BitSet) (v : UInt16) (member : v ∈ b) : (b.insert v).1 = b := by
  have same := (Word.or_single_eq_iff (b.words.word (v.toNat / 64)) (v.toNat % 64) (by omega)).mpr
    member
  rw [insert, same]
  exact b.setWord_word _

theorem erase_spec (b : BitSet) (v : UInt16) (formed : b.WellFormed) :
    (b.erase v).1.WellFormed ∧ (b.erase v).2 = b.words.test v.toNat ∧
      ∀ p, (b.erase v).1.words.test p = (!decide (p = v.toNat) && b.words.test p) := by
  have low := v.toNat_lt
  refine ⟨formed.setWord _ _ (by omega), ?_, fun p => ?_⟩
  · rw [Bool.eq_iff_iff, erase, bne_iff_ne, ne_comm, ne_eq,
      Word.and_not_single_eq_iff _ _ (by omega), Bool.not_eq_false]
    rfl
  · rw [erase, words_setWord, Words.test_setWord]
    split
    · rename_i here
      rw [Word.test_and _ _ _ (by omega), Word.test_not _ _ (by omega),
        Word.test_single _ _ (by omega) (by omega), here.1, Words.test, Bool.and_comm]
      congr 2
      rw [decide_eq_decide]
      omega
    · rename_i elsewhere
      have other : p ≠ v.toNat := by
        rintro rfl
        exact elsewhere ⟨rfl, low⟩
      simp [other]

/-! Ranges. -/

def mask (range : Span) (i : Nat) : Word :=
  Word.between (range.start - 64 * i) (range.stop - 64 * i)

theorem test_mask (range : Span) (i k : Nat) (inside : k < 64) :
    (mask range i).test k = decide (64 * i + k ∈ range) := by
  rw [mask, Word.test_between _ _ _ inside, Bool.eq_iff_iff, Bool.and_eq_true, decide_eq_true_eq,
    decide_eq_true_eq, decide_eq_true_eq, Span.mem_def]
  omega

theorem eq_mask {range : Span} {i : Nat} {w : Word}
    (tests : ∀ k, k < 64 → (w.test k = true ↔ range.start ≤ 64 * i + k ∧ 64 * i + k < range.stop)) :
    w = mask range i := by
  apply Word.ext
  intro k inside
  rw [test_mask _ _ _ inside, Bool.eq_iff_iff, tests k inside, decide_eq_true_eq, Span.mem_def]

def wordsTouched (range : Span) : Nat := (range.stop - 1) / 64 + 1 - range.start / 64

def masksFrom (range : Span) (i n : Nat) : List (Nat × Word) :=
  (List.range' i n).map fun i => (i, mask range i)

theorem masksFrom_succ (range : Span) (i n : Nat) :
    masksFrom range i (n + 1) = (i, mask range i) :: masksFrom range (i + 1) n := by
  rw [masksFrom, List.range'_succ, List.map_cons, ← masksFrom]

/-- Each of the cases gives every word that is touched its bits of the range. -/
theorem maskedWords_eq {range : Span} (forwards : range.start < range.stop) :
    maskedWords range = masksFrom range (range.start / 64) (wordsTouched range) := by
  rw [maskedWords, masksFrom, wordsTouched]
  split
  · rename_i same
    have one : (range.stop - 1) / 64 + 1 - range.start / 64 = 1 := by omega
    have whole : Word.between (range.start % 64) (range.stop % 64) = mask range (range.start / 64) :=
      eq_mask fun k inside => by
        rw [Word.test_between _ _ _ inside, Bool.and_eq_true, decide_eq_true_eq, decide_eq_true_eq]
        omega
    rw [one, whole]
    rfl
  · rename_i apart
    have first : ~~~Word.ones (range.start % 64) = mask range (range.start / 64) :=
      eq_mask fun k inside => by
        rw [Word.test_not _ _ inside, Word.test_ones _ _ inside, Bool.not_eq_true',
          decide_eq_false_iff_not]
        omega
    have middle : (List.range' (range.start / 64 + 1)
          (range.stop / 64 - (range.start / 64 + 1))).map (fun i => (i, ~~~(0 : Word))) =
        (List.range' (range.start / 64 + 1)
          (range.stop / 64 - (range.start / 64 + 1))).map fun i => (i, mask range i) := by
      refine List.map_congr_left fun i member => ?_
      rw [List.mem_range'_1] at member
      refine congrArg (i, ·) (eq_mask fun k inside => ?_)
      rw [Word.test_not _ _ inside, Word.test_zero, Bool.not_false, eq_self, true_iff]
      omega
    rw [first, middle]
    split
    · have count : (range.stop - 1) / 64 + 1 - range.start / 64 =
          range.stop / 64 - (range.start / 64 + 1) + 1 := by omega
      rw [count, List.range'_succ, List.map_cons, List.append_nil]
    · have count : (range.stop - 1) / 64 + 1 - range.start / 64 =
          range.stop / 64 - (range.start / 64 + 1) + 1 + 1 := by omega
      have last : range.start / 64 + 1 + (range.stop / 64 - (range.start / 64 + 1)) =
          range.stop / 64 := by omega
      have ends : Word.ones (range.stop % 64) = mask range (range.stop / 64) :=
        eq_mask fun k inside => by
          rw [Word.test_ones _ _ inside, decide_eq_true_eq]
          omega
      rw [count, List.range'_succ, List.range'_1_concat, last, List.map_cons, List.map_append, ends]
      rfl

/-- A change of words that acts on each bit by itself and leaves bits outside the mask alone. -/
structure Bitwise (change : Word → Word → Word) (bit : Bool → Bool → Bool) : Prop where
  bits : ∀ w m i, i < 64 → (change w m).test i = bit (w.test i) (m.test i)
  outside : ∀ b, bit b false = b

theorem foldl_changeWord {change : Word → Word → Word} {bit : Bool → Bool → Bool}
    (bitwise : Bitwise change bit) (range : Span) (n i : Nat) (b : BitSet) (formed : b.WellFormed)
    (inside : i + n ≤ 1024) :
    ((masksFrom range i n).foldl (changeWord change) b).WellFormed ∧
      ∀ p, ((masksFrom range i n).foldl (changeWord change) b).words.test p =
        if 64 * i ≤ p ∧ p < 64 * (i + n) then bit (b.words.test p) (decide (p ∈ range))
        else b.words.test p := by
  induction n generalizing i b with
  | zero =>
    refine ⟨formed, ?_⟩
    intro p
    rw [masksFrom, List.range'_zero, List.map_nil, List.foldl_nil, if_neg (by omega)]
  | succ n ih =>
    obtain ⟨formedRest, tests⟩ := ih (i + 1) _
      (formed.setWord i (change (b.words.word i) (mask range i)) (by omega)) (by omega)
    rw [masksFrom_succ, List.foldl_cons, changeWord]
    refine ⟨formedRest, ?_⟩
    intro p
    rw [tests p, words_setWord, Words.test_setWord]
    by_cases here : i = p / 64
    · rw [if_neg (by omega), if_pos (by omega), if_pos (by omega),
        bitwise.bits _ _ _ (by omega), test_mask _ _ _ (by omega), here, ← Words.test,
        Nat.div_add_mod]
    · rw [if_neg (by omega : ¬ (i = p / 64 ∧ p < 65536))]
      split
      · rw [if_pos (by omega)]
      · rw [if_neg (by omega)]

theorem updateRange_spec {change : Word → Word → Word} {bit : Bool → Bool → Bool}
    (bitwise : Bitwise change bit) (b : BitSet) (range : Span) (formed : b.WellFormed)
    (inside : range.stop ≤ 65536) :
    ∃ c, b.updateRange change range = .ok c ∧ c.WellFormed ∧
      ∀ p, c.words.test p = bit (b.words.test p) (decide (p ∈ range)) := by
  rw [updateRange]
  cases empty : range.isEmpty with
  | true =>
    refine ⟨b, by simp, formed, ?_⟩
    intro p
    have none := (Span.isEmpty_iff range).mp empty p
    simp [none, bitwise.outside]
  | false =>
    have nonempty : range.start < range.stop := by simpa [Span.isEmpty] using empty
    have touched : range.start / 64 + wordsTouched range = (range.stop - 1) / 64 + 1 := by
      rw [wordsTouched]
      omega
    obtain ⟨formedC, tests⟩ := foldl_changeWord bitwise range (wordsTouched range)
      (range.start / 64) b formed (by omega)
    rw [if_neg Bool.false_ne_true, if_neg (Nat.not_lt.mpr inside), maskedWords_eq nonempty]
    refine ⟨_, rfl, formedC, ?_⟩
    intro p
    rw [tests p]
    split
    · rfl
    · have out : p ∉ range := by
        rw [Span.mem_def]
        omega
      simp [out, bitwise.outside]

theorem bitwise_or : Bitwise (fun w m => w ||| m) (fun b m => b || m) :=
  ⟨fun w m i inside => Word.test_or w m i inside, Bool.or_false⟩

theorem bitwise_andNot : Bitwise (fun w m => w &&& ~~~m) (fun b m => b && !m) := by
  refine ⟨?_, fun b => by simp⟩
  intro w m i inside
  rw [Word.test_and _ _ _ inside, Word.test_not _ _ inside]

theorem bitwise_xor : Bitwise (fun w m => w ^^^ m) (fun b m => b ^^ m) :=
  ⟨fun w m i inside => Word.test_xor w m i inside, Bool.xor_false⟩

/-- Changing by the ranges of a canonical list of runs changes what the list covers, once. -/
theorem foldlM_updateRange {change : Word → Word → Word} {bit : Bool → Bool → Bool}
    (bitwise : Bitwise change bit) (runs : List Run) (canonical : Run.Canonical runs) (b : BitSet)
    (formed : b.WellFormed) :
    ∃ c, runs.foldlM (fun b r => b.updateRange change r.span) b = .ok c ∧ c.WellFormed ∧
      ∀ p, c.words.test p = bit (b.words.test p) (decide (Run.Covers runs p)) := by
  induction runs generalizing b with
  | nil => exact ⟨b, rfl, formed, fun p => by simp [bitwise.outside]⟩
  | cons r runs ih =>
    obtain ⟨next, step, formedNext, testsNext⟩ :=
      updateRange_spec bitwise b r.span formed canonical.stop_le
    obtain ⟨c, rest, formedC, tests⟩ := ih canonical.tail next formedNext
    refine ⟨c, ?_, formedC, ?_⟩
    · rw [List.foldlM_cons, step]
      exact rest
    · intro p
      rw [tests p, testsNext p]
      by_cases later : Run.Covers runs p
      · have gap := canonical.stop_lt p later
        have out : p ∉ r.span := by
          rw [Span.mem_def]
          exact fun inside => by have := inside.2; simp only [Run.span] at this; omega
        simp [later, out, bitwise.outside]
      · have same : Run.Covers (r :: runs) p ↔ p ∈ r.span := by
          simp [later, Span.mem_def, Run.span]
        simp [later, same, bitwise.outside]

theorem ofRuns_spec (runs : Array Run) (canonical : Run.Canonical runs.toList) :
    ∃ c, ofRuns runs = .ok c ∧ c.WellFormed ∧
      ∀ p, c.words.test p = decide (Run.Covers runs.toList p) := by
  obtain ⟨c, done, formed, tests⟩ :=
    foldlM_updateRange bitwise_or runs.toList canonical empty wellFormed_empty
  refine ⟨c, ?_, formed, ?_⟩
  · rw [ofRuns, ← Array.foldlM_toList]
    exact done
  · intro p
    rw [tests p, empty, Words.test_empty, Bool.false_or]

def closeGap (state : BitSet × Nat) (r : Run) : Checked (BitSet × Nat) :=
  return (← state.1.eraseRange ⟨state.2, r.start.toNat⟩, r.stop)

/-- Removing the gaps between the runs, from the end of what is done on. -/
theorem closeGaps_spec (runs : List Run) (canonical : Run.Canonical runs) (covered : Nat)
    (behind : ∀ n, Run.Covers runs n → covered ≤ n) (b : BitSet) (formed : b.WellFormed) :
    ∃ c, (runs.foldlM closeGap (b, covered) >>= fun state =>
        state.1.eraseRange ⟨state.2, 65536⟩) = .ok c ∧ c.WellFormed ∧
      ∀ p, c.words.test p =
        (b.words.test p && (decide (p < covered) || decide (Run.Covers runs p))) := by
  induction runs generalizing covered b with
  | nil =>
    obtain ⟨c, step, formedC, tests⟩ :=
      updateRange_spec bitwise_andNot b ⟨covered, 65536⟩ formed (Nat.le_refl _)
    refine ⟨c, step, formedC, ?_⟩
    intro p
    rw [tests p]
    by_cases inside : p < 65536
    · by_cases low : p < covered
      · simp [Span.mem_def, low]
      · simp [Span.mem_def, inside, low, Nat.le_of_not_lt low]
    · simp [Words.test_of_le b.words p (Nat.le_of_not_lt inside)]
  | cons r runs ih =>
    have first : covered ≤ r.start.toNat := behind _ (Run.covers_start List.mem_cons_self)
    have nonempty := r.start_lt_stop
    have bounded := canonical.stop_le
    obtain ⟨next, step, formedNext, testsNext⟩ :=
      updateRange_spec bitwise_andNot b ⟨covered, r.start.toNat⟩ formed (by simp only; omega)
    obtain ⟨c, rest, formedC, tests⟩ := ih canonical.tail r.stop
      (fun n later => Nat.le_of_lt (canonical.stop_lt n later)) next formedNext
    refine ⟨c, ?_, formedC, ?_⟩
    · have closed : closeGap (b, covered) r = .ok (next, r.stop) := by
        rw [closeGap, eraseRange, step]
        rfl
      rw [List.foldlM_cons, closed]
      exact rest
    · intro p
      rw [tests p, testsNext p, Bool.and_assoc]
      congr 1
      rw [Bool.eq_iff_iff]
      have gap := canonical.stop_lt p
      simp only [Bool.and_eq_true, Bool.or_eq_true, Bool.not_eq_true', decide_eq_true_eq,
        decide_eq_false_iff_not, Span.mem_def, Run.covers_cons]
      constructor
      · rintro ⟨outside, low | later⟩
        · omega
        · exact Or.inr (Or.inr later)
      · rintro (low | inside | later)
        · exact ⟨by omega, Or.inl (by omega)⟩
        · exact ⟨by omega, Or.inl inside.2⟩
        · have := gap later
          exact ⟨by omega, Or.inr later⟩

theorem retainRuns_spec (b : BitSet) (runs : Array Run) (canonical : Run.Canonical runs.toList)
    (formed : b.WellFormed) :
    ∃ c, b.retainRuns runs = .ok c ∧ c.WellFormed ∧
      ∀ p, c.words.test p = (b.words.test p && decide (Run.Covers runs.toList p)) := by
  obtain ⟨c, done, formedC, tests⟩ :=
    closeGaps_spec runs.toList canonical 0 (fun _ _ => Nat.zero_le _) b formed
  refine ⟨c, ?_, formedC, ?_⟩
  · rw [retainRuns, ← Array.foldlM_toList]
    exact done
  · intro p
    rw [tests p]
    simp

/-! Lists of values. -/

theorem mem_ofSortedValues (values : Array UInt16) (v : UInt16) :
    v ∈ ofSortedValues values ↔ v ∈ values := by
  have set (list : List UInt16) (ws : Words) :
      (list.foldl (fun ws u => ws.setBit u.toNat) ws).test v.toNat = true ↔
        v ∈ list ∨ ws.test v.toNat = true := by
    induction list generalizing ws with
    | nil => simp
    | cons u list ih =>
      rw [List.foldl_cons, ih, Words.test_setBit _ _ _ u.toNat_lt, Bool.or_eq_true,
        decide_eq_true_eq, UInt16.toNat_inj, List.mem_cons]
      tauto
  rw [mem_def, ofSortedValues, ofWords, ← Array.foldl_toList, set]
  simp

/-! Two sets, word by word. -/

theorem wellFormed_zipWords (op : Word → Word → Word) (a b : BitSet) :
    (zipWords op a b).WellFormed := wellFormed_ofWords _

/-- Ahead of the words already replaced the first set is still as it was. -/
theorem combineFrom_eq (op : Word → Word → Word) (keepsZero : op 0 0 = 0) (a b : Words)
    (n i : Nat) (whole : i + n = 1024) (ws : Words) (total : Nat)
    (replaced : ∀ j < i, ws.word j = Words.word (Vector.zipWith op a b) j)
    (ahead : ∀ j, i ≤ j → ws.word j = a.word j) :
    combineFrom op b n i ws total =
      (Vector.zipWith op a b, Words.countOnto (Vector.zipWith op a b) n i total) := by
  induction n generalizing i ws total with
  | zero =>
    have same : ws = Vector.zipWith op a b :=
      Words.ext_word fun j inside => replaced j (by omega)
    rw [combineFrom, Words.countOnto, same]
  | succ n ih =>
    have next := Words.word_zipWith op keepsZero a b i
    rw [combineFrom, Words.countOnto, ahead i (Nat.le_refl i), next]
    refine ih (i + 1) (by omega) _ _ (fun j less => ?_) fun j more => ?_
    · rw [Words.word_setWord]
      rcases Nat.lt_succ_iff_lt_or_eq.mp less with earlier | rfl
      · rw [if_neg (by omega), replaced j earlier]
      · rw [if_pos ⟨rfl, by omega⟩, next]
    · rw [Words.word_setWord, if_neg (by omega), ahead j (by omega)]

/-- Combining in place gives what combining anew gives. -/
theorem combineWith_eq (op : Word → Word → Word) (keepsZero : op 0 0 = 0) (a b : BitSet) :
    combineWith op a b = zipWords op a b := by
  have walked := combineFrom_eq op keepsZero a.words b.words 1024 0 (Nat.zero_add 1024) a.words 0
    (fun j less => absurd less (Nat.not_lt_zero j)) fun j _ => rfl
  rw [combineWith, walked, zipWords, ofWords, Words.count]

theorem unionWith_eq (a b : BitSet) : a.unionWith b = a.union b := combineWith_eq _ rfl a b

theorem interWith_eq (a b : BitSet) : a.interWith b = a.inter b := combineWith_eq _ rfl a b

theorem symmDiffWith_eq (a b : BitSet) : a.symmDiffWith b = a.symmDiff b :=
  combineWith_eq _ rfl a b

theorem diffWith_eq (a b : BitSet) : a.diffWith b = a.diff b := combineWith_eq _ rfl a b

theorem mem_union (a b : BitSet) (v : UInt16) : v ∈ a.union b ↔ v ∈ a ∨ v ∈ b := by
  rw [mem_def, union, zipWords, ofWords,
    Words.test_zipWith _ (fun x y => x || y) rfl Word.test_or, Bool.or_eq_true]
  rfl

theorem mem_inter (a b : BitSet) (v : UInt16) : v ∈ a.inter b ↔ v ∈ a ∧ v ∈ b := by
  rw [mem_def, inter, zipWords, ofWords,
    Words.test_zipWith _ (fun x y => x && y) rfl Word.test_and, Bool.and_eq_true]
  rfl

theorem mem_symmDiff (a b : BitSet) (v : UInt16) : v ∈ a.symmDiff b ↔ ¬ (v ∈ a ↔ v ∈ b) := by
  rw [mem_def, symmDiff, zipWords, ofWords,
    Words.test_zipWith _ (fun x y => x ^^ y) rfl Word.test_xor, mem_def, mem_def]
  cases a.words.test v.toNat <;> cases b.words.test v.toNat <;> simp

theorem mem_diff (a b : BitSet) (v : UInt16) : v ∈ a.diff b ↔ v ∈ a ∧ v ∉ b := by
  rw [mem_def, diff, zipWords, ofWords,
    Words.test_zipWith _ (fun x y => x && !y) rfl bitwise_andNot.bits, mem_def, mem_def]
  simp

/-! Counting without a result. -/

theorem foldl_popCount_masks (b : BitSet) (range : Span) (n i total : Nat) :
    (masksFrom range i n).foldl (fun total part => total + (b.words.word part.1 &&& part.2).popCount)
      total = total +
      (List.range' (64 * i) (64 * n)).countP fun p => b.words.test p && decide (p ∈ range) := by
  induction n generalizing i total with
  | zero => simp [masksFrom]
  | succ n ih =>
    have here : ((b.words.word i) &&& mask range i).popCount =
        ((List.range 64).map (64 * i + ·)).countP
          fun p => b.words.test p && decide (p ∈ range) := by
      rw [Word.popCount_and, List.countP_map]
      apply List.countP_congr
      intro k member
      have low := List.mem_range.mp member
      rw [Function.comp_apply, Words.test_block _ i k low, test_mask range i k low]
    rw [masksFrom_succ, List.foldl_cons, ih, here, Words.range'_words, List.countP_append,
      Nat.add_assoc]

/-- Only the words that the range touches are looked at, and of these only what the range covers. -/
theorem rangeCardinality_eq (b : BitSet) (range : Span) (inside : range.stop ≤ 65536) :
    b.rangeCardinality range =
      .ok ((List.range' range.start range.length).countP b.words.test) := by
  rw [rangeCardinality]
  cases empty : range.isEmpty with
  | true =>
    have nothing : range.length = 0 := by
      rw [Span.isEmpty, decide_eq_true_eq] at empty
      exact Nat.sub_eq_zero_of_le empty
    rw [if_pos rfl, nothing]
    rfl
  | false =>
    have nonempty : range.start < range.stop := by simpa [Span.isEmpty] using empty
    have touched : range.start / 64 + wordsTouched range = (range.stop - 1) / 64 + 1 := by
      rw [wordsTouched]
      omega
    have window := countP_range'_window b.words.test (64 * (range.start / 64))
      (64 * wordsTouched range) range.start range.stop (by omega)
      (Nat.le_of_lt nonempty) (by omega)
    rw [if_neg Bool.false_ne_true, if_neg (Nat.not_lt.mpr inside), maskedWords_eq nonempty,
      foldl_popCount_masks, Nat.zero_add]
    exact congrArg Except.ok window

theorem interCount_eq (a b : BitSet) : a.interCount b = (a.inter b).cardinality :=
  (wellFormed_zipWords _ a b).symm

theorem meets_iff (a b : BitSet) : a.meets b = true ↔ ∃ v, v ∈ a.inter b := by
  rw [meets, Vector.any_eq_true]
  constructor
  · rintro ⟨i, inside, nonzero⟩
    rw [bne_iff_ne] at nonzero
    by_contra none
    apply nonzero
    apply Word.ext
    intro k low
    rw [Word.test_zero, Bool.eq_false_iff]
    intro set
    have bound : 64 * i + k < 65536 := by omega
    have value : (64 * i + k).toUInt16.toNat = 64 * i + k := toNat_toUInt16 bound
    refine none ⟨(64 * i + k).toUInt16, ?_⟩
    rw [mem_def, value, Words.test_block _ i k low, Words.word_of_lt _ i inside]
    exact set
  · rintro ⟨v, member⟩
    have inside : v.toNat / 64 < 1024 := by
      have low := v.toNat_lt
      omega
    refine ⟨v.toNat / 64, inside, ?_⟩
    rw [bne_iff_ne]
    intro zero
    rw [mem_def, Words.test, Words.word_of_lt _ _ inside] at member
    change Word.test (Vector.zipWith _ _ _)[v.toNat / 64] _ = true at member
    rw [zero, Word.test_zero] at member
    contradiction

end Roaring.BitSet
