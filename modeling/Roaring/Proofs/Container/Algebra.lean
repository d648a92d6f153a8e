import Mathlib.Data.Set.Basic
import Roaring.Container.Algebra
import Roaring.Proofs.Container.Convert
import Roaring.Proofs.ArraySet.Algebra

/-! Container algebra is set algebra, for every pair of encodings. Each pair has its own way, shown
to keep the right values; the result is then settled by its last re-encoding. -/
namespace Roaring

/-- What an answer is known to satisfy, the answer at hand satisfies. -/
theorem of_answer {α : Type} {result : Checked α} {p : α → Prop} {a : α}
    (answers : ∃ b, result = .ok b ∧ p b) (done : result = .ok a) : p a := by
  obtain ⟨b, answered, known⟩ := answers
  rwa [Except.ok.inj (done.symm.trans answered)]

namespace BitSet

theorem foldl_change (change : BitSet → UInt16 → BitSet) (bit : Bool → Bool → Bool)
    (changes : ∀ b v, b.WellFormed → (change b v).WellFormed ∧
      ∀ p, (change b v).words.test p = bit (b.words.test p) (decide (p = v.toNat)))
    (outside : ∀ x, bit x false = x) (values : List UInt16) (sorted : values.Pairwise (· < ·))
    (b : BitSet) (formed : b.WellFormed) :
    (values.foldl change b).WellFormed ∧
      ∀ v : UInt16, (values.foldl change b).words.test v.toNat =
        bit (b.words.test v.toNat) (decide (v ∈ values)) := by
  induction values generalizing b with
  | nil => exact ⟨formed, fun v => by simp [outside]⟩
  | cons u values ih =>
    obtain ⟨behind, sortedLeft⟩ := List.pairwise_cons.mp sorted
    obtain ⟨formedNext, testsNext⟩ := changes b u formed
    obtain ⟨formedLast, tests⟩ := ih sortedLeft (change b u) formedNext
    refine ⟨formedLast, ?_⟩
    intro v
    rw [List.foldl_cons, tests v, testsNext v.toNat]
    by_cases later : v ∈ values
    · have other : v ≠ u := fun same => UInt16.lt_irrefl u (behind u (same ▸ later))
      simp [later, outside, UInt16.toNat_inj, other]
    · simp [later, outside, UInt16.toNat_inj]

end BitSet

namespace Container

theorem addAll_spec (b : BitSet) (s : ArraySet) (formedB : b.WellFormed) (formedS : s.WellFormed) :
    (addAll b s).WellFormed ∧ ∀ v, v ∈ addAll b s ↔ v ∈ b ∨ v ∈ s := by
  obtain ⟨formed, tests⟩ := BitSet.foldl_change (fun b v => (b.insert v).1)
    (fun x y => x || y) (fun b v formed => by
      obtain ⟨formed', -, tests⟩ := b.insert_spec v formed
      exact ⟨formed', fun p => by rw [tests p, Bool.or_comm]⟩)
    Bool.or_false s.values.toList formedS.ascending b formedB
  rw [addAll, ← Array.foldl_toList]
  refine ⟨formed, ?_⟩
  intro v
  rw [BitSet.mem_def, tests v]
  simp [BitSet.mem_def, ArraySet.mem_def]

theorem eraseAll_spec (b : BitSet) (s : ArraySet) (formedB : b.WellFormed)
    (formedS : s.WellFormed) :
    (eraseAll b s).WellFormed ∧ ∀ v, v ∈ eraseAll b s ↔ v ∈ b ∧ v ∉ s := by
  obtain ⟨formed, tests⟩ := BitSet.foldl_change (fun b v => (b.erase v).1)
    (fun x y => x && !y) (fun b v formed => by
      obtain ⟨formed', -, tests⟩ := b.erase_spec v formed
      exact ⟨formed', fun p => by rw [tests p, Bool.and_comm]⟩)
    (fun x => by simp) s.values.toList formedS.ascending b formedB
  rw [eraseAll, ← Array.foldl_toList]
  refine ⟨formed, ?_⟩
  intro v
  rw [BitSet.mem_def, tests v]
  simp [BitSet.mem_def, ArraySet.mem_def]

theorem flip_spec (b : BitSet) (v : UInt16) (formed : b.WellFormed) :
    (flip b v).WellFormed ∧
      ∀ p, (flip b v).words.test p = (b.words.test p ^^ decide (p = v.toNat)) := by
  obtain ⟨formedAdded, added, testsAdded⟩ := b.insert_spec v formed
  simp only [flip, added]
  cases present : b.words.test v.toNat with
  | false =>
    refine ⟨formedAdded, ?_⟩
    intro p
    rw [Bool.not_false, if_pos rfl, testsAdded p]
    by_cases here : p = v.toNat
    · simp [here, present]
    · simp [here]
  | true =>
    obtain ⟨formedErased, -, testsErased⟩ := (b.insert v).1.erase_spec v formedAdded
    refine ⟨formedErased, ?_⟩
    intro p
    rw [Bool.not_true, if_neg Bool.false_ne_true, testsErased p, testsAdded p]
    by_cases here : p = v.toNat
    · simp [here, present]
    · simp [here]

theorem flipAll_spec (b : BitSet) (s : ArraySet) (formedB : b.WellFormed)
    (formedS : s.WellFormed) :
    (flipAll b s).WellFormed ∧ ∀ v, v ∈ flipAll b s ↔ ¬ (v ∈ b ↔ v ∈ s) := by
  obtain ⟨formed, tests⟩ := BitSet.foldl_change flip (fun x y => x ^^ y) flip_spec Bool.xor_false
    s.values.toList formedS.ascending b formedB
  rw [flipAll, ← Array.foldl_toList]
  refine ⟨formed, ?_⟩
  intro v
  rw [BitSet.mem_def, tests v]
  simp only [Array.mem_toList_iff, BitSet.mem_def, ArraySet.mem_def]
  cases b.words.test v.toNat <;> simp

theorem overRanges_spec {change : Word → Word → Word} {bit : Bool → Bool → Bool}
    (bitwise : BitSet.Bitwise change bit) (b : BitSet) (r : RunSet) (formedB : b.WellFormed)
    (formedR : r.WellFormed) :
    ∃ c, overRanges (BitSet.updateRange change) b r = .ok c ∧ c.WellFormed ∧
      ∀ v, v ∈ c ↔ bit (decide (v ∈ b)) (decide (v ∈ r)) = true := by
  obtain ⟨c, done, formed, tests⟩ :=
    BitSet.foldlM_updateRange bitwise r.runs.toList formedR b formedB
  refine ⟨c, ?_, formed, ?_⟩
  · rw [overRanges, ← Array.foldlM_toList]
    exact done
  · intro v
    rw [BitSet.mem_def, tests v.toNat]
    simp [BitSet.mem_def, RunSet.mem_def]

variable {c d : Container}

theorem settled_filter (s t : ArraySet) (test : UInt16 → Bool) (keep : UInt16 → Prop)
    (formed : s.WellFormed) (kept : t.values.toList = s.values.toList.filter test)
    (mem : ∀ v, v ∈ s ∧ test v = true ↔ keep v) : Settled (array t) keep := by
  apply settled_array
  · apply formed.of_sublist
    rw [kept]
    exact List.filter_sublist
  · intro v
    rw [← mem v, ArraySet.mem_def, ArraySet.mem_def, ← Array.mem_toList_iff, kept,
      List.mem_filter, Array.mem_toList_iff]

theorem mem_of_isFull (r : RunSet) (full : r.isFull = true) (v : UInt16) : v ∈ r := by
  rw [(RunSet.isFull_iff r).mp full]
  exact RunSet.mem_full v

theorem settled_inter_array_bits (s : ArraySet) (b : BitSet) (formed : s.WellFormed) :
    Settled (array (s.filter b.contains)) (fun v => v ∈ s ∧ v ∈ b) :=
  settled_filter s _ _ _ formed (s.filter_toList _) fun v => by rw [b.contains_iff]

theorem settled_inter_array_runs (s : ArraySet) (r : RunSet) (formedS : s.WellFormed)
    (formedR : r.WellFormed) :
    Settled (array (s.interRuns r.runs)) (fun v => v ∈ s ∧ v ∈ r) :=
  settled_filter s _ _ _ formedS (s.toList_interRuns r.runs formedS formedR) fun v => by
    rw [decide_eq_true_eq, RunSet.mem_def]

theorem settled_inter_bits_runs (b : BitSet) (r : RunSet) (formedB : b.WellFormed)
    (formedR : r.WellFormed) :
    ∃ e, (bits b).inter (runs r) = .ok e ∧ Settled e (fun v => v ∈ b ∧ v ∈ r) := by
  rw [inter]
  split
  · rename_i full
    refine ⟨ofBits b, rfl, settled_ofBits b _ formedB ?_⟩
    exact fun v => (and_iff_left (mem_of_isFull r full v)).symm
  · obtain ⟨kept, done, formed, tests⟩ := b.retainRuns_spec r.runs formedR formedB
    refine ⟨ofBits kept, by rw [done]; rfl, settled_ofBits kept _ formed ?_⟩
    intro v
    rw [BitSet.mem_def, tests v.toNat, Bool.and_eq_true, decide_eq_true_eq]
    rfl

theorem inter_spec (formedC : c.WellFormed) (formedD : d.WellFormed) :
    ∃ e, c.inter d = .ok e ∧ Settled e (fun v => v ∈ c ∧ v ∈ d) := by
  cases c with
  | array s =>
    cases d with
    | array t =>
      obtain ⟨sorted, mem⟩ := ArraySet.merge_values false true s t formedC formedD
      have shared (v : UInt16) : v ∈ s.inter t ↔ v ∈ s ∧ v ∈ t := by
        simpa [ArraySet.inter, ArraySet.mem_def] using mem v
      have inside : (s.inter t).values.toList ⊆ s.values.toList := fun v member =>
        Array.mem_toList_iff.mpr ((shared v).mp (Array.mem_toList_iff.mp member)).1
      have distinct : (s.inter t).values.toList.Nodup := sorted.imp UInt16.ne_of_lt
      refine ⟨_, rfl, settled_array (s.inter t) _ ⟨sorted, ?_⟩ shared⟩
      have fewer := (distinct.subperm inside).length_le
      rw [Array.length_toList, Array.length_toList] at fewer
      exact Nat.le_trans fewer formedC.short
    | bits b => exact ⟨_, rfl, settled_inter_array_bits s b formedC⟩
    | runs r => exact ⟨_, rfl, settled_inter_array_runs s r formedC formedD⟩
  | bits b =>
    cases d with
    | array s => exact ⟨_, rfl, (settled_inter_array_bits s b formedD).congr fun v => and_comm⟩
    | bits a =>
      exact ⟨_, rfl, settled_ofBits _ _ (BitSet.wellFormed_zipWords _ b a) (b.mem_inter a)⟩
    | runs r => exact settled_inter_bits_runs b r formedC formedD
  | runs r =>
    cases d with
    | array s =>
      exact ⟨_, rfl, (settled_inter_array_runs s r formedD formedC).congr fun v => and_comm⟩
    | bits b =>
      obtain ⟨e, done, settled⟩ := settled_inter_bits_runs b r formedD formedC
      exact ⟨e, done, settled.congr fun v => and_comm⟩
    | runs q =>
      rw [inter]
      split
      · rename_i full
        exact settled_ofRuns q _ formedD fun v => (and_iff_right (mem_of_isFull r full v)).symm
      · split
        · rename_i full
          exact settled_ofRuns r _ formedC fun v => (and_iff_left (mem_of_isFull q full v)).symm
        · obtain ⟨canonical, covers⟩ := Run.inter_spec _ _ formedC formedD
          exact settled_ofRuns (r.inter q) _ canonical fun v => covers v.toNat

theorem settled_with_points (op : List Run → List Run → Array Run) (mix : Prop → Prop → Prop)
    (spec : ∀ a b, Run.Canonical a → Run.Canonical b →
      Run.Canonical (op a b).toList ∧
        ∀ n, Run.Covers (op a b).toList n ↔ mix (Run.Covers a n) (Run.Covers b n))
    (r : RunSet) (s : ArraySet) (formedR : r.WellFormed) (formedS : s.WellFormed) :
    ∃ e, ofRuns ⟨op r.runs.toList (RunSet.ofSortedValues s.values).runs.toList⟩ = .ok e ∧
      Settled e (fun v => mix (v ∈ r) (v ∈ s)) := by
  obtain ⟨formed, mem⟩ := RunSet.ofSortedValues_spec s.values formedS.ascending
  obtain ⟨canonical, covers⟩ := spec r.runs.toList _ formedR formed
  apply settled_ofRuns _ _ canonical
  intro v
  rw [ArraySet.mem_def, ← mem v]
  exact covers v.toNat

theorem settled_union_array_runs (s : ArraySet) (r : RunSet) (formedS : s.WellFormed)
    (formedR : r.WellFormed) :
    ∃ e, (array s).union (runs r) = .ok e ∧ Settled e (fun v => v ∈ r ∨ v ∈ s) := by
  rw [union]
  split
  · rename_i full
    exact ⟨_, rfl, settled_full _ fun v => Or.inl (mem_of_isFull r full v)⟩
  · exact settled_with_points Run.union Or Run.union_spec r s formedR formedS

theorem settled_union_bits_runs (b : BitSet) (r : RunSet) (formedB : b.WellFormed)
    (formedR : r.WellFormed) :
    ∃ e, (bits b).union (runs r) = .ok e ∧ Settled e (fun v => v ∈ b ∨ v ∈ r) := by
  rw [union]
  split
  · rename_i full
    exact ⟨_, rfl, settled_full _ fun v => Or.inr (mem_of_isFull r full v)⟩
  · obtain ⟨a, done, formed, mem⟩ := overRanges_spec BitSet.bitwise_or b r formedB formedR
    refine ⟨ofBits a, ?_, settled_ofBits a _ formed fun v => (mem v).trans (by simp)⟩
    exact congrArg (· >>= fun b => pure (ofBits b)) done

theorem union_spec (formedC : c.WellFormed) (formedD : d.WellFormed) :
    ∃ e, c.union d = .ok e ∧ Settled e (fun v => v ∈ c ∨ v ∈ d) := by
  cases c with
  | array s =>
    cases d with
    | array t =>
      obtain ⟨sorted, mem⟩ := ArraySet.merge_values true true s t formedC formedD
      refine ⟨_, rfl, settled_ofSortedValues _ _ sorted fun v => (mem v).trans ?_⟩
      rw [mem_array, mem_array, ArraySet.mem_def, ArraySet.mem_def]
      tauto
    | bits b =>
      obtain ⟨formed, mem⟩ := addAll_spec b s formedD formedC
      exact ⟨_, rfl, (settled_ofBits _ _ formed mem).congr fun v => or_comm⟩
    | runs r =>
      obtain ⟨e, done, settled⟩ := settled_union_array_runs s r formedC formedD
      exact ⟨e, done, settled.congr fun v => or_comm⟩
  | bits b =>
    cases d with
    | array s =>
      obtain ⟨formed, mem⟩ := addAll_spec b s formedC formedD
      exact ⟨_, rfl, settled_ofBits _ _ formed mem⟩
    | bits a =>
      exact ⟨_, rfl, settled_ofBits _ _ (BitSet.wellFormed_zipWords _ b a) (b.mem_union a)⟩
    | runs r => exact settled_union_bits_runs b r formedC formedD
  | runs r =>
    cases d with
    | array s => exact settled_union_array_runs s r formedD formedC
    | bits b =>
      obtain ⟨e, done, settled⟩ := settled_union_bits_runs b r formedD formedC
      exact ⟨e, done, settled.congr fun v => or_comm⟩
    | runs q =>
      rw [union]
      split
      · rename_i full
        refine ⟨_, rfl, settled_full _ fun v => ?_⟩
        rcases (Bool.or_eq_true _ _).mp full with fullR | fullQ
        · exact Or.inl (mem_of_isFull r fullR v)
        · exact Or.inr (mem_of_isFull q fullQ v)
      · obtain ⟨canonical, covers⟩ := Run.union_spec _ _ formedC formedD
        exact settled_ofRuns (r.union q) _ canonical fun v => covers v.toNat

theorem settled_symmDiff_bits_runs (b : BitSet) (r : RunSet) (formedB : b.WellFormed)
    (formedR : r.WellFormed) :
    ∃ e, (bits b).symmDiff (runs r) = .ok e ∧ Settled e (fun v => ¬ (v ∈ b ↔ v ∈ r)) := by
  obtain ⟨a, done, formed, mem⟩ := overRanges_spec BitSet.bitwise_xor b r formedB formedR
  refine ⟨ofBits a, ?_, settled_ofBits a _ formed fun v => (mem v).trans (by simp)⟩
  exact congrArg (· >>= fun b => pure (ofBits b)) done

theorem symmDiff_spec (formedC : c.WellFormed) (formedD : d.WellFormed) :
    ∃ e, c.symmDiff d = .ok e ∧ Settled e (fun v => ¬ (v ∈ c ↔ v ∈ d)) := by
  cases c with
  | array s =>
    cases d with
    | array t =>
      obtain ⟨sorted, mem⟩ := ArraySet.merge_values true false s t formedC formedD
      refine ⟨_, rfl, settled_ofSortedValues _ _ sorted fun v => (mem v).trans ?_⟩
      rw [mem_array, mem_array, ArraySet.mem_def, ArraySet.mem_def]
      tauto
    | bits b =>
      obtain ⟨formed, mem⟩ := flipAll_spec b s formedD formedC
      exact ⟨_, rfl, (settled_ofBits _ _ formed mem).congr fun v => not_congr iff_comm⟩
    | runs r =>
      obtain ⟨e, done, settled⟩ := settled_with_points Run.symmDiff (fun p q => ¬ (p ↔ q))
        Run.symmDiff_spec r s formedD formedC
      exact ⟨e, done, settled.congr fun v => not_congr iff_comm⟩
  | bits b =>
    cases d with
    | array s =>
      obtain ⟨formed, mem⟩ := flipAll_spec b s formedC formedD
      exact ⟨_, rfl, settled_ofBits _ _ formed mem⟩
    | bits a =>
      exact ⟨_, rfl, settled_ofBits _ _ (BitSet.wellFormed_zipWords _ b a) (b.mem_symmDiff a)⟩
    | runs r => exact settled_symmDiff_bits_runs b r formedC formedD
  | runs r =>
    cases d with
    | array s =>
      exact settled_with_points Run.symmDiff (fun p q => ¬ (p ↔ q)) Run.symmDiff_spec r s formedC
        formedD
    | bits b =>
      obtain ⟨e, done, settled⟩ := settled_symmDiff_bits_runs b r formedD formedC
      exact ⟨e, done, settled.congr fun v => not_congr iff_comm⟩
    | runs q =>
      obtain ⟨canonical, covers⟩ := Run.symmDiff_spec _ _ formedC formedD
      exact settled_ofRuns (r.symmDiff q) _ canonical fun v => covers v.toNat

theorem settled_diff_runs_bits (r : RunSet) (b : BitSet) (formedR : r.WellFormed) :
    ∃ e, (if r.cardinality ≤ ArraySet.maxLength then
        .ok (.array (r.toArraySet.filter (fun v => !b.contains v)))
      else return ofBits ((← r.toBitSet).diff b) : Checked Container) = .ok e ∧
      Settled e (fun v => v ∈ r ∧ v ∉ b) := by
  split
  · rename_i few
    have formedS : r.toArraySet.WellFormed :=
      ⟨formedR.values_ascending, formedR.size_values.trans_le few⟩
    refine ⟨_, rfl, settled_filter _ _ _ _ formedS (ArraySet.filter_toList _ _) fun v => ?_⟩
    rw [Bool.not_eq_true', ← Bool.not_eq_true, b.contains_iff]
    exact and_congr_left fun _ => formedR.mem_values v
  · obtain ⟨a, done, -, mem⟩ := r.toBitSet_spec formedR
    refine ⟨ofBits (a.diff b), by rw [done]; rfl,
      settled_ofBits _ _ (BitSet.wellFormed_zipWords _ a b) fun v => ?_⟩
    rw [a.mem_diff b, mem v]

/-- Containers that overlap; disjoint bounds leave the first container as it is. -/
theorem settled_diff (formedC : c.WellFormed) (formedD : d.WellFormed)
    (overlap : c.apart d = false) :
    ∃ e, c.diff d = .ok e ∧ Settled e (fun v => v ∈ c ∧ v ∉ d) := by
  rw [diff.eq_def, if_neg (by simp [overlap])]
  cases c with
  | array s =>
    cases d with
    | array t =>
      refine ⟨_, rfl, settled_filter s _ _ _ formedC (s.toList_diff t formedC formedD) fun v => ?_⟩
      rw [decide_eq_true_eq]
      rfl
    | bits b =>
      refine ⟨_, rfl, settled_filter s _ _ _ formedC (s.filter_toList _) fun v => ?_⟩
      rw [Bool.not_eq_true', ← Bool.not_eq_true, b.contains_iff]
      rfl
    | runs r =>
      refine ⟨_, rfl,
        settled_filter s _ _ _ formedC (s.toList_diffRuns r.runs formedC formedD) fun v => ?_⟩
      rw [decide_eq_true_eq]
      rfl
  | bits b =>
    cases d with
    | array s =>
      obtain ⟨formed, mem⟩ := eraseAll_spec b s formedC formedD
      exact ⟨_, rfl, settled_ofBits _ _ formed mem⟩
    | bits a =>
      exact ⟨_, rfl, settled_ofBits _ _ (BitSet.wellFormed_zipWords _ b a) (b.mem_diff a)⟩
    | runs r =>
      obtain ⟨a, done, formed, mem⟩ := overRanges_spec BitSet.bitwise_andNot b r formedC formedD
      refine ⟨ofBits a, ?_, settled_ofBits a _ formed fun v => (mem v).trans (by simp)⟩
      exact congrArg (· >>= fun b => pure (ofBits b)) done
  | runs r =>
    cases d with
    | array s =>
      exact settled_with_points Run.diff (fun p q => p ∧ ¬ q) Run.diff_spec r s formedC formedD
    | bits b => exact settled_diff_runs_bits r b formedC
    | runs q =>
      obtain ⟨canonical, covers⟩ := Run.diff_spec _ _ formedC formedD
      exact settled_ofRuns (r.diff q) _ canonical fun v => covers v.toNat

end Container

inductive SetOp where
  | inter
  | union
  | symmDiff
  | diff
deriving DecidableEq

namespace SetOp

/-- Whether the operation keeps something, by the operands that hold it. -/
def Keeps : SetOp → Prop → Prop → Prop
  | inter, p, q => p ∧ q
  | union, p, q => p ∨ q
  | symmDiff, p, q => ¬ (p ↔ q)
  | diff, p, q => p ∧ ¬ q

/-- Nothing is made up. -/
theorem Keeps.either {op : SetOp} {p q : Prop} (kept : op.Keeps p q) : p ∨ q := by
  cases op with
  | inter => exact Or.inl kept.1
  | union => exact kept
  | symmDiff =>
    by_contra neither
    rw [not_or] at neither
    exact kept (iff_of_false neither.1 neither.2)
  | diff => exact Or.inl kept.1

def onSets {α : Type} : SetOp → Set α → Set α → Set α
  | inter, s, t => s ∩ t
  | union, s, t => s ∪ t
  | symmDiff, s, t => s \ t ∪ t \ s
  | diff, s, t => s \ t

theorem mem_onSets {α : Type} (op : SetOp) (s t : Set α) (x : α) :
    x ∈ op.onSets s t ↔ op.Keeps (x ∈ s) (x ∈ t) := by
  cases op with
  | inter => exact Iff.rfl
  | union => exact Iff.rfl
  | symmDiff =>
    rw [onSets, Keeps, Set.mem_union, Set.mem_sdiff, Set.mem_sdiff]
    tauto
  | diff => exact Iff.rfl

def onContainers : SetOp → Container → Container → Checked Container
  | inter => Container.inter
  | union => Container.union
  | symmDiff => Container.symmDiff
  | diff => Container.diff

def inContainer : SetOp → Container → Container → Checked Container
  | inter => Container.interInPlace
  | union => Container.unionInPlace
  | symmDiff => Container.symmDiffInPlace
  | diff => Container.diffInPlace

end SetOp

namespace Container

variable {c d : Container}

def members (c : Container) : Set UInt16 := {v | v ∈ c.values}

theorem WellFormed.mem_members (formed : c.WellFormed) (v : UInt16) : v ∈ c.members ↔ v ∈ c :=
  formed.mem_values v

/-- Every operation answers, with the values that it keeps. Only a difference of disjoint containers
can hand out an operand that was not canonical. -/
theorem operation_spec (op : SetOp) (formedC : c.WellFormed) (formedD : d.WellFormed) :
    ∃ e, op.onContainers c d = .ok e ∧ e.WellFormed ∧ (∀ v, v ∈ e ↔ op.Keeps (v ∈ c) (v ∈ d)) ∧
      ((∀ v, v ∉ e) → e = empty) ∧ (c.Canonical → e.Canonical) := by
  have settled (keep : UInt16 → Prop) (result : Checked Container)
      (done : ∃ e, result = .ok e ∧ Settled e keep) :
      ∃ e, result = .ok e ∧ e.WellFormed ∧ (∀ v, v ∈ e ↔ keep v) ∧
        ((∀ v, v ∉ e) → e = empty) ∧ (c.Canonical → e.Canonical) := by
    obtain ⟨e, done, settled⟩ := done
    exact ⟨e, done, settled.canonical.1, settled.mem_iff,
      fun none => settled.empty fun v kept => none v ((settled.mem_iff v).mpr kept),
      fun _ => settled.canonical⟩
  cases op with
  | inter => exact settled _ _ (inter_spec formedC formedD)
  | union => exact settled _ _ (union_spec formedC formedD)
  | symmDiff => exact settled _ _ (symmDiff_spec formedC formedD)
  | diff =>
    cases bounds : c.apart d with
    | false => exact settled _ _ (settled_diff formedC formedD bounds)
    | true =>
      refine ⟨if c.isEmpty then empty else c, by
        rw [SetOp.onContainers, diff.eq_def, if_pos bounds], ?_⟩
      split
      · rename_i none
        have absent := formedC.isEmpty_iff.mp none
        exact ⟨wellFormed_empty, fun v => by simp [SetOp.Keeps, absent v], fun _ => rfl,
          fun _ => canonical_empty⟩
      · rename_i some
        refine ⟨formedC, fun v => ?_, fun none => absurd (formedC.isEmpty_iff.mpr none) some, id⟩
        exact (and_iff_left_of_imp (not_mem_of_apart formedC formedD bounds v)).symm

/-- Container algebra is set algebra. -/
theorem members_onContainers (op : SetOp) (c d : Container) (formedC : c.WellFormed)
    (formedD : d.WellFormed) :
    ∃ e, op.onContainers c d = .ok e ∧ e.WellFormed ∧
      e.members = op.onSets c.members d.members ∧ (e.members = ∅ → e = empty) ∧
      (c.Canonical → d.Canonical → e.Canonical) := by
  obtain ⟨e, done, formed, mem, none, canonical⟩ := operation_spec op formedC formedD
  refine ⟨e, done, formed, ?_, ?_, fun canonicalC _ => canonical canonicalC⟩
  · ext v
    rw [SetOp.mem_onSets, formed.mem_members, formedC.mem_members, formedD.mem_members, mem]
  · intro nothing
    apply none
    intro v member
    have inside : v ∈ e.members := (formed.mem_members v).mpr member
    rw [nothing] at inside
    exact inside

/-- Two sparse bits at the ends of the domain, without the run of all values but the last. -/
theorem members_onContainers_at_bounds :
    let ends := bits (.ofSortedValues #[0, 65535])
    let most := runs ⟨#[⟨0, 65534⟩]⟩
    ends.WellFormed ∧ most.WellFormed ∧
      ∃ e, SetOp.diff.onContainers ends most = .ok e ∧ e.WellFormed ∧
        e.members = ends.members \ most.members ∧ (e.members = ∅ → e = empty) ∧
        (ends.Canonical → most.Canonical → e.Canonical) := by
  have formedEnds : (bits (.ofSortedValues #[0, 65535])).WellFormed := BitSet.wellFormed_ofWords _
  have formedMost : (runs ⟨#[⟨0, 65534⟩]⟩).WellFormed := Run.canonical_singleton _ (by decide)
  exact ⟨formedEnds, formedMost, members_onContainers .diff _ _ formedEnds formedMost⟩

/-- The forms that change the first operand give the same containers. -/
theorem inContainer_eq (op : SetOp) (c d : Container) :
    op.inContainer c d = op.onContainers c d := by
  cases op with
  | inter =>
    simp only [SetOp.inContainer, SetOp.onContainers, interInPlace]
    split
    · rfl
    · rfl
    · rw [BitSet.interWith_eq, inter]
    · rw [inter]
      split <;> rfl
    · rfl
  | union =>
    simp only [SetOp.inContainer, SetOp.onContainers, unionInPlace]
    split
    · rw [BitSet.unionWith_eq, union]
    · rfl
    · rw [union]
      split <;> rfl
    · rfl
  | symmDiff =>
    simp only [SetOp.inContainer, SetOp.onContainers, symmDiffInPlace]
    split
    · rw [BitSet.symmDiffWith_eq, symmDiff]
    · rfl
    · rfl
  | diff =>
    simp only [SetOp.inContainer, SetOp.onContainers, diffInPlace]
    split
    · rename_i disjoint
      rw [diff.eq_def, if_pos disjoint]
    · rename_i overlap
      split
      · rw [diff, if_neg overlap]
      · rw [diff, if_neg overlap]
      · rw [BitSet.diffWith_eq, diff, if_neg overlap]
      · rw [diff, if_neg overlap]
      · rfl

end Container

end Roaring
