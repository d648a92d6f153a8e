import Roaring.Proofs.RunSet.Algebra

/-! Sequences of updates of a dense set. Each update is the set operation on the positions that test
as set, and the kept cardinality follows by signed differences of whole words. Neither drifts: after
any number of updates the kept cardinality is the number of set positions, and the running account of
an update is nowhere negative. -/
namespace Roaring

/-- The operation on two sets of bits, the first of which is overwritten. -/
def SetOp.inBits : SetOp → BitSet → BitSet → BitSet
  | inter => BitSet.interWith
  | union => BitSet.unionWith
  | symmDiff => BitSet.symmDiffWith
  | diff => BitSet.diffWith

def SetOp.onBit : SetOp → Bool → Bool → Bool
  | inter, p, q => p && q
  | union, p, q => p || q
  | symmDiff, p, q => p ^^ q
  | diff, p, q => p && !q

theorem SetOp.onBit_iff (op : SetOp) (p q : Bool) :
    op.onBit p q = true ↔ op.Keeps (p = true) (q = true) := by
  cases op <;> cases p <;> cases q <;> simp [onBit, Keeps]

namespace BitSet

def positions (b : BitSet) : Set Nat := {p | b.words.test p = true}

theorem WellFormed.ncard_positions {b : BitSet} (formed : b.WellFormed) :
    b.positions.ncard = b.cardinality := by
  have all : b.positions = {p | p ∈ List.range 65536 ∧ b.words.test p = true} := by
    ext p
    refine ⟨fun set => ⟨List.mem_range.mpr (b.words.lt_of_test p set), set⟩, And.right⟩
  rw [all, ← countP_eq_ncard List.nodup_range, ← Words.count_eq_countP, ← formed]

theorem finite_positions (b : BitSet) : b.positions.Finite :=
  (Set.finite_Iio 65536).subset fun p => b.words.lt_of_test p

/-- An answer that is a well-formed set of the given positions. -/
def Leaves (answer : Checked BitSet) (S : Set Nat) : Prop :=
  ∃ c, answer = .ok c ∧ c.WellFormed ∧ c.positions = S

theorem leaves_of_tests {answer : Checked BitSet} {test : Nat → Bool} {S : Set Nat}
    (spec : ∃ c, answer = .ok c ∧ c.WellFormed ∧ ∀ p, c.words.test p = test p)
    (same : ∀ p, test p = true ↔ p ∈ S) : Leaves answer S := by
  obtain ⟨c, done, formed, tests⟩ := spec
  refine ⟨c, done, formed, Set.ext fun p => ?_⟩
  rw [← same, ← tests p]
  rfl

/-! One update. -/

section
variable {b : BitSet} (formed : b.WellFormed)
include formed

theorem WellFormed.leaves_insertRange (range : Span) (inside : range.stop ≤ 65536) :
    Leaves (b.insertRange range) (b.positions ∪ Set.Ico range.start range.stop) := by
  apply leaves_of_tests (updateRange_spec bitwise_or b range formed inside)
  intro p
  rw [Bool.or_eq_true, decide_eq_true_eq]
  rfl

theorem WellFormed.leaves_eraseRange (range : Span) (inside : range.stop ≤ 65536) :
    Leaves (b.eraseRange range) (b.positions \ Set.Ico range.start range.stop) := by
  apply leaves_of_tests (updateRange_spec bitwise_andNot b range formed inside)
  intro p
  rw [Bool.and_eq_true, Bool.not_eq_true', decide_eq_false_iff_not]
  rfl

theorem WellFormed.leaves_flipRange (range : Span) (inside : range.stop ≤ 65536) :
    Leaves (b.flipRange range) (b.positions \ Set.Ico range.start range.stop ∪
      Set.Ico range.start range.stop \ b.positions) := by
  apply leaves_of_tests (updateRange_spec bitwise_xor b range formed inside)
  intro p
  change _ ↔ b.words.test p = true ∧ p ∉ range ∨ p ∈ range ∧ ¬ b.words.test p = true
  by_cases member : p ∈ range <;> simp [member]

theorem WellFormed.leaves_retainRuns (runs : Array Run) (canonical : Run.Canonical runs.toList) :
    Leaves (b.retainRuns runs) (b.positions ∩ Run.coverage runs.toList) := by
  apply leaves_of_tests (retainRuns_spec b runs canonical formed)
  intro p
  rw [Bool.and_eq_true, decide_eq_true_eq]
  rfl

theorem WellFormed.positions_insert (v : UInt16) :
    (b.insert v).1.positions = b.positions ∪ {v.toNat} := by
  ext p
  change (b.insert v).1.words.test p = true ↔ b.words.test p = true ∨ p = v.toNat
  rw [(insert_spec b v formed).2.2 p, Bool.or_eq_true, decide_eq_true_eq, or_comm]

theorem WellFormed.positions_erase (v : UInt16) :
    (b.erase v).1.positions = b.positions \ {v.toNat} := by
  ext p
  change (b.erase v).1.words.test p = true ↔ b.words.test p = true ∧ p ≠ v.toNat
  rw [(erase_spec b v formed).2.2 p, Bool.and_eq_true, Bool.not_eq_true', decide_eq_false_iff_not,
    and_comm]

end

theorem rangeCardinality_exact (b : BitSet) (range : Span) (inside : range.stop ≤ 65536) :
    b.rangeCardinality range = .ok (b.positions ∩ Set.Ico range.start range.stop).ncard := by
  have among : b.positions ∩ Set.Ico range.start range.stop =
      {p | p ∈ List.range' range.start range.length ∧ b.words.test p = true} := by
    ext p
    change b.words.test p = true ∧ range.start ≤ p ∧ p < range.stop ↔ _ ∧ b.words.test p = true
    rw [List.mem_range'_1, Span.length, and_comm]
    refine and_congr_left fun _ => ?_
    omega
  rw [rangeCardinality_eq b range inside, among, ← countP_eq_ncard List.nodup_range']

theorem combineWith_spec {op : Word → Word → Word} (bit : Bool → Bool → Bool)
    (keepsZero : op 0 0 = 0)
    (bits : ∀ w x i, i < 64 → (op w x).test i = bit (w.test i) (x.test i)) (b other : BitSet) :
    (combineWith op b other).WellFormed ∧
      ∀ p, (combineWith op b other).words.test p = bit (b.words.test p) (other.words.test p) := by
  rw [combineWith_eq op keepsZero]
  exact ⟨wellFormed_zipWords op b other,
    Words.test_zipWith op bit keepsZero bits b.words other.words⟩

/-- The number that the other set keeps has no part in what is left. -/
theorem inBits_spec (op : SetOp) (b other : BitSet) : (op.inBits b other).WellFormed ∧
    ∀ p, (op.inBits b other).words.test p = op.onBit (b.words.test p) (other.words.test p) := by
  cases op with
  | inter => exact combineWith_spec (SetOp.onBit .inter) rfl Word.test_and b other
  | union => exact combineWith_spec (SetOp.onBit .union) rfl Word.test_or b other
  | symmDiff => exact combineWith_spec (SetOp.onBit .symmDiff) rfl Word.test_xor b other
  | diff => exact combineWith_spec (SetOp.onBit .diff) rfl bitwise_andNot.bits b other

theorem positions_inBits (op : SetOp) (b other : BitSet) :
    (op.inBits b other).positions = op.onSets b.positions other.positions := by
  ext p
  rw [SetOp.mem_onSets]
  change (op.inBits b other).words.test p = true ↔ _
  rw [(inBits_spec op b other).2 p, SetOp.onBit_iff]
  rfl

/-! The account. -/

/-- The signed difference of set bits when words change, each by its mask, and nothing else does. -/
def delta (change : Word → Word → Word) (b : BitSet) (parts : List (Nat × Word)) : Int :=
  (parts.map fun part =>
    ((change (b.words.word part.1) part.2).popCount : Int) - (b.words.word part.1).popCount).sum

/-- Replacing a word moves the kept cardinality by the difference, without wrapping around. -/
theorem WellFormed.cardinality_setWord {b : BitSet} (formed : b.WellFormed) (i : Nat) (w : Word)
    (inside : i < 1024) : ((b.setWord i w).cardinality : Int) =
      b.cardinality + ((w.popCount : Int) - (b.words.word i).popCount) := by
  have after : (b.setWord i w).cardinality = (b.words.setWord i w).count :=
    formed.setWord i w inside
  have before : b.cardinality = b.words.count := formed
  have moved := Words.count_setWord b.words i w inside
  omega

/-- Where no word is changed twice, each difference is one to a word as it was at first. -/
theorem cardinality_foldl_changeWord (change : Word → Word → Word) (parts : List (Nat × Word))
    (apart : (parts.map Prod.fst).Nodup) (inside : ∀ part ∈ parts, part.1 < 1024) (b : BitSet)
    (formed : b.WellFormed) :
    ((parts.foldl (changeWord change) b).cardinality : Int) =
      b.cardinality + delta change b parts := by
  induction parts generalizing b with
  | nil => simp [delta]
  | cons part parts ih =>
    obtain ⟨fresh, apartRest⟩ := List.nodup_cons.mp apart
    have here := inside part List.mem_cons_self
    have formedNext := formed.setWord part.1 (change (b.words.word part.1) part.2) here
    have moved := formed.cardinality_setWord part.1 (change (b.words.word part.1) part.2) here
    have later : delta change (changeWord change b part) parts = delta change b parts := by
      rw [delta, delta]
      refine congrArg List.sum (List.map_congr_left fun other member => ?_)
      have elsewhere : part.1 ≠ other.1 := by
        intro same
        exact fresh (same ▸ List.mem_map_of_mem member)
      rw [changeWord, words_setWord, Words.word_setWord, if_neg fun both => elsewhere both.1]
    have rest := ih apartRest (fun other member => inside other (List.mem_cons_of_mem _ member))
      (changeWord change b part) formedNext
    rw [List.foldl_cons, rest, later, changeWord, moved, delta, delta, List.map_cons, List.sum_cons,
      Int.add_assoc]

/-- The words that a range touches are different ones of the set. -/
theorem indices_maskedWords {range : Span} (forwards : range.start < range.stop) :
    (maskedWords range).map Prod.fst =
      List.range' (range.start / 64) (wordsTouched range) := by
  rw [maskedWords_eq forwards, masksFrom, List.map_map]
  exact List.map_id' _

/-- After any number of the words of a range, the account is the kept cardinality there. -/
theorem WellFormed.account_take {b : BitSet} (formed : b.WellFormed) (change : Word → Word → Word)
    (range : Span) (forwards : range.start < range.stop) (inside : range.stop ≤ 65536) (k : Nat) :
    (((maskedWords range).take k).foldl (changeWord change) b).cardinality =
      (b.cardinality : Int) + delta change b ((maskedWords range).take k) := by
  have indices := indices_maskedWords forwards
  refine cardinality_foldl_changeWord change _ ?_ ?_ b formed
  · have distinct : ((maskedWords range).map Prod.fst).Nodup := indices ▸ List.nodup_range'
    rw [List.map_take]
    exact distinct.sublist (List.take_sublist k _)
  · intro part member
    have touched : part.1 ∈ List.range' (range.start / 64) (wordsTouched range) := by
      rw [← indices]
      exact List.mem_map_of_mem (List.mem_of_mem_take member)
    rw [List.mem_range'_1, wordsTouched] at touched
    omega

/-- The bit that a value adds is counted, and one that was set already is not. -/
theorem WellFormed.cardinality_insert {b : BitSet} (formed : b.WellFormed) (v : UInt16) :
    (b.insert v).1.cardinality = b.cardinality + (b.insert v).2.toNat := by
  obtain ⟨formedC, added, -⟩ := insert_spec b v formed
  rw [← formedC.ncard_positions, ← formed.ncard_positions, formed.positions_insert, added,
    Set.union_singleton]
  cases set : b.words.test v.toNat with
  | true =>
    have member : v.toNat ∈ b.positions := set
    exact congrArg Set.ncard (Set.insert_eq_of_mem member)
  | false =>
    have absent : v.toNat ∉ b.positions := Bool.eq_false_iff.mp set
    exact Set.ncard_insert_of_notMem absent b.finite_positions

theorem WellFormed.cardinality_erase {b : BitSet} (formed : b.WellFormed) (v : UInt16) :
    (b.erase v).1.cardinality + (b.erase v).2.toNat = b.cardinality := by
  obtain ⟨formedC, removed, -⟩ := erase_spec b v formed
  rw [← formedC.ncard_positions, ← formed.ncard_positions, formed.positions_erase, removed]
  cases set : b.words.test v.toNat with
  | true =>
    have member : v.toNat ∈ b.positions := set
    exact Set.ncard_sdiff_singleton_add_one member b.finite_positions
  | false =>
    have absent : v.toNat ∉ b.positions := Bool.eq_false_iff.mp set
    exact congrArg Set.ncard (Set.sdiff_singleton_eq_self absent)

/-- The last account of a range is the kept cardinality of the answer, and no earlier one is
negative. -/
theorem WellFormed.account {b : BitSet} (formed : b.WellFormed) (change : Word → Word → Word)
    (range : Span) (forwards : range.start < range.stop) (inside : range.stop ≤ 65536) :
    (∀ k, 0 ≤ (b.cardinality : Int) + delta change b ((maskedWords range).take k)) ∧
      ∃ c, b.updateRange change range = .ok c ∧
        (c.cardinality : Int) = b.cardinality + delta change b (maskedWords range) := by
  have running := formed.account_take change range forwards inside
  have whole := running (maskedWords range).length
  rw [List.take_length] at whole
  refine ⟨fun k => running k ▸ Int.natCast_nonneg _, _, ?_, whole⟩
  have nonempty : ¬ range.isEmpty = true := by simpa [Span.isEmpty] using forwards
  rw [updateRange, if_neg nonempty, if_neg (Nat.not_lt.mpr inside)]

/-! Sequences of updates. -/

inductive Update where
  | insert (v : UInt16)
  | erase (v : UInt16)
  | insertRange (range : Span)
  | eraseRange (range : Span)
  | flipRange (range : Span)
  | retainRuns (runs : Array Run)
  | combine (op : SetOp) (other : BitSet)

namespace Update

/-- Ranges end within the domain, and lists of runs are canonical. -/
def Proper : Update → Prop
  | insert _ | erase _ | combine _ _ => True
  | insertRange range | eraseRange range | flipRange range => range.stop ≤ 65536
  | retainRuns runs => Run.Canonical runs.toList

instance : (update : Update) → Decidable update.Proper
  | insert _ | erase _ | combine _ _ => inferInstanceAs (Decidable True)
  | insertRange range | eraseRange range | flipRange range =>
    inferInstanceAs (Decidable (range.stop ≤ 65536))
  | retainRuns runs => inferInstanceAs (Decidable (Run.Canonical runs.toList))

def onBits : Update → BitSet → Checked BitSet
  | insert v, b => .ok (b.insert v).1
  | erase v, b => .ok (b.erase v).1
  | insertRange range, b => b.insertRange range
  | eraseRange range, b => b.eraseRange range
  | flipRange range, b => b.flipRange range
  | retainRuns runs, b => b.retainRuns runs
  | combine op other, b => .ok (op.inBits b other)

def onPositions : Update → Set Nat → Set Nat
  | insert v, S => S ∪ {v.toNat}
  | erase v, S => S \ {v.toNat}
  | insertRange range, S => S ∪ Set.Ico range.start range.stop
  | eraseRange range, S => S \ Set.Ico range.start range.stop
  | flipRange range, S =>
    S \ Set.Ico range.start range.stop ∪ Set.Ico range.start range.stop \ S
  | retainRuns runs, S => S ∩ Run.coverage runs.toList
  | combine op other, S => op.onSets S other.positions

end Update

theorem leaves_update {b : BitSet} (formed : b.WellFormed) (update : Update)
    (proper : update.Proper) : Leaves (update.onBits b) (update.onPositions b.positions) := by
  cases update with
  | insert v => exact ⟨_, rfl, (insert_spec b v formed).1, formed.positions_insert v⟩
  | erase v => exact ⟨_, rfl, (erase_spec b v formed).1, formed.positions_erase v⟩
  | insertRange range => exact formed.leaves_insertRange range proper
  | eraseRange range => exact formed.leaves_eraseRange range proper
  | flipRange range => exact formed.leaves_flipRange range proper
  | retainRuns runs => exact formed.leaves_retainRuns runs proper
  | combine op other => exact ⟨_, rfl, (inBits_spec op b other).1, positions_inBits op b other⟩

theorem leaves_updates (updates : List Update) (proper : ∀ update ∈ updates, update.Proper)
    {b : BitSet} (formed : b.WellFormed) :
    Leaves (updates.foldlM (fun b update => update.onBits b) b)
      (updates.foldl (fun S update => update.onPositions S) b.positions) := by
  induction updates generalizing b with
  | nil => exact ⟨b, rfl, formed, rfl⟩
  | cons update updates ih =>
    obtain ⟨next, step, formedNext, same⟩ :=
      leaves_update formed update (proper update List.mem_cons_self)
    rw [List.foldlM_cons, step, List.foldl_cons, ← same]
    exact ih (fun later member => proper later (List.mem_cons_of_mem _ member)) formedNext

/-- What the range operations of a set do and count, and how its kept cardinality is moved. -/
structure Exact (b : BitSet) : Prop where
  cardinality : b.cardinality = b.words.count ∧ b.cardinality = b.positions.ncard
  insertRange : ∀ range : Span, range.stop ≤ 65536 →
    Leaves (b.insertRange range) (b.positions ∪ Set.Ico range.start range.stop)
  eraseRange : ∀ range : Span, range.stop ≤ 65536 →
    Leaves (b.eraseRange range) (b.positions \ Set.Ico range.start range.stop)
  flipRange : ∀ range : Span, range.stop ≤ 65536 → Leaves (b.flipRange range)
    (b.positions \ Set.Ico range.start range.stop ∪ Set.Ico range.start range.stop \ b.positions)
  rangeCardinality : ∀ range : Span, range.stop ≤ 65536 →
    b.rangeCardinality range = .ok (b.positions ∩ Set.Ico range.start range.stop).ncard
  retainRuns : ∀ runs : Array Run, Run.Canonical runs.toList →
    Leaves (b.retainRuns runs) (b.positions ∩ Run.coverage runs.toList)
  inserted : ∀ v, (b.insert v).1.cardinality = b.cardinality + (b.insert v).2.toNat
  erased : ∀ v, (b.erase v).1.cardinality + (b.erase v).2.toNat = b.cardinality
  account : ∀ change (range : Span), range.start < range.stop → range.stop ≤ 65536 →
    (∀ k, 0 ≤ (b.cardinality : Int) + delta change b ((maskedWords range).take k)) ∧
      ∃ c, b.updateRange change range = .ok c ∧
        (c.cardinality : Int) = b.cardinality + delta change b (maskedWords range)

theorem WellFormed.exact {b : BitSet} (formed : b.WellFormed) : b.Exact where
  cardinality := ⟨formed, formed.ncard_positions.symm⟩
  insertRange := formed.leaves_insertRange
  eraseRange := formed.leaves_eraseRange
  flipRange := formed.leaves_flipRange
  rangeCardinality := b.rangeCardinality_exact
  retainRuns := formed.leaves_retainRuns
  inserted := formed.cardinality_insert
  erased := formed.cardinality_erase
  account := formed.account

/-- From a well-formed set no sequence of updates fails, each of them does to the positions what it
stands for, and the set that is left is exact again. -/
theorem exact_after_updates (b : BitSet) (formed : b.WellFormed) (updates : List Update)
    (proper : ∀ update ∈ updates, update.Proper) :
    ∃ c, updates.foldlM (fun b update => update.onBits b) b = .ok c ∧ c.Exact ∧
      c.positions = updates.foldl (fun S update => update.onPositions S) b.positions := by
  obtain ⟨c, done, formedC, same⟩ := leaves_updates updates proper formed
  exact ⟨c, done, formedC.exact, same⟩

/-- Ranges that end within a word, with a word and with the domain. -/
theorem exact_after_updates_at_borders :
    let updates : List Update :=
      [.insertRange ⟨60, 130⟩, .flipRange ⟨64, 65536⟩, .eraseRange ⟨130, 192⟩, .erase 65535]
    ∃ c, updates.foldlM (fun b update => update.onBits b) empty = .ok c ∧ c.Exact ∧
      c.positions = Set.Ico 60 64 ∪ Set.Ico 192 65535 := by
  intro updates
  obtain ⟨c, done, exact, same⟩ := exact_after_updates empty wellFormed_empty updates (by decide)
  refine ⟨c, done, exact, same.trans ?_⟩
  ext p
  simp [updates, Update.onPositions, positions, empty]
  omega

end BitSet

end Roaring
