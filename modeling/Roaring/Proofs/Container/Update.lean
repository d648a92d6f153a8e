import Roaring.Container.Update
import Roaring.Proofs.ArraySet.Update
import Roaring.Proofs.RunSet.Update
import Roaring.Proofs.Container.Algebra

/-! Changes of a container are changes of its set of values, in every encoding, and keep it
canonical: a list that would grow too long turns into bits, bits that become few into a list. -/
namespace Roaring.Container

variable {c d : Container}

theorem Canonical.of_more {b : BitSet} (canonical : c.Canonical) (many : c.kind = .bits)
    (formed : b.WellFormed) (more : ∀ v ∈ c, v ∈ b) : (bits b).Canonical := by
  refine ⟨formed, ?_⟩
  rintro b' same
  obtain rfl := Container.bits.inj same
  have formedB : (bits b).WellFormed := formed
  have grown := canonical.1.cardinality_le formedB more
  cases c with
  | array s => contradiction
  | runs r => contradiction
  | bits a => exact Nat.lt_of_lt_of_le (canonical.2 a rfl) grown

/-! Single values. -/

/-- What a container is after a value was added. -/
structure Inserted (c : Container) (v : UInt16) (d : Container) (added : Bool) : Prop where
  formed : d.WellFormed
  mem_iff : ∀ u, u ∈ d ↔ u = v ∨ u ∈ c
  added_iff : added = true ↔ v ∉ c
  canonical : c.Canonical → d.Canonical

theorem insert_full_list (s : ArraySet) (v : UInt16) (formed : s.WellFormed)
    (long : ¬ s.length < ArraySet.maxLength) :
    Inserted (array s) v ((array s).insert v).1 ((array s).insert v).2 := by
  have present := s.contains_iff v formed.ascending
  rw [insert, if_neg long]
  split
  · rename_i found
    have member := present.mp found
    refine ⟨formed, fun u => ?_, by simpa using member, id⟩
    constructor
    · exact Or.inr
    · rintro (rfl | old)
      · exact member
      · exact old
  · rename_i missing
    have absent : v ∉ s := fun member => missing (present.mpr member)
    obtain ⟨formedB, -, tests⟩ :=
      (BitSet.ofSortedValues s.values).insert_spec v (BitSet.wellFormed_ofWords _)
    have mem (u : UInt16) :
        u ∈ ((BitSet.ofSortedValues s.values).insert v).1 ↔ u = v ∨ u ∈ s := by
      rw [BitSet.mem_def, tests, Bool.or_eq_true, decide_eq_true_eq, UInt16.toNat_inj,
        ← BitSet.mem_def, BitSet.mem_ofSortedValues]
      rfl
    refine ⟨formedB, mem, by simpa using absent, fun _ => ⟨formedB, ?_⟩⟩
    rintro b same
    obtain rfl := Container.bits.inj same
    have formedS : (array s).WellFormed := formed
    have formedC : (bits ((BitSet.ofSortedValues s.values).insert v).1).WellFormed := formedB
    have more := WellFormed.cardinality_lt formedS formedC (fun u old => (mem u).mpr (Or.inr old)) v
      ((mem v).mpr (Or.inl rfl)) absent
    exact Nat.lt_of_le_of_lt (Nat.le_of_not_lt long) more

theorem insert_spec (c : Container) (v : UInt16) (formed : c.WellFormed) :
    Inserted c v (c.insert v).1 (c.insert v).2 := by
  cases c with
  | array s =>
    by_cases short : s.length < ArraySet.maxLength
    · obtain ⟨sorted, mem, added, length⟩ := s.insert_spec v formed.ascending
      rw [insert, if_pos short]
      have formedT : (array (s.insert v).1).WellFormed := ⟨sorted, Nat.le_trans length short⟩
      exact ⟨formedT, mem, added, fun _ => formedT.canonical_of_kind_ne_bits (by simp [kind])⟩
    · exact insert_full_list s v formed short
  | bits b =>
    obtain ⟨formedB, added, tests⟩ := b.insert_spec v formed
    have mem (u : UInt16) : u ∈ (b.insert v).1 ↔ u = v ∨ u ∈ b := by
      rw [BitSet.mem_def, tests, Bool.or_eq_true, decide_eq_true_eq, UInt16.toNat_inj]
      rfl
    refine ⟨formedB, mem, ?_, fun canonical => ?_⟩
    · rw [insert, added, Bool.not_eq_true', ← Bool.not_eq_true]
      rfl
    · exact canonical.of_more rfl formedB fun u old => (mem u).mpr (Or.inr old)
  | runs r =>
    obtain ⟨formedR, mem, added⟩ := r.insert_spec v formed
    have formedC : (runs (r.insert v).1).WellFormed := formedR
    exact ⟨formedC, mem, added, fun _ => formedC.canonical_of_kind_ne_bits (by simp [kind])⟩

theorem insert_of_mem (c : Container) (v : UInt16) (formed : c.WellFormed) (member : v ∈ c) :
    (c.insert v).1 = c := by
  cases c with
  | array s =>
    rw [insert]
    split
    · exact congrArg array (s.insert_of_mem v formed.ascending member)
    · rw [if_pos ((s.contains_iff v formed.ascending).mpr member)]
  | bits b =>
    exact congrArg bits (b.insert_of_mem v member)
  | runs r => rw [insert, r.insert_of_mem v formed member]

/-- What a container is after a value was removed. -/
structure Erased (c : Container) (v : UInt16) (d : Container) (removed : Bool) : Prop where
  formed : d.WellFormed
  mem_iff : ∀ u, u ∈ d ↔ u ≠ v ∧ u ∈ c
  removed_iff : removed = true ↔ v ∈ c
  canonical : c.Canonical → d.Canonical

theorem erase_spec (c : Container) (v : UInt16) (formed : c.WellFormed) :
    Erased c v (c.erase v).1 (c.erase v).2 := by
  cases c with
  | array s =>
    obtain ⟨some_, mem, removed⟩ := s.erase_spec v formed.ascending
    have formedT : (array (s.erase v).1).WellFormed := formed.of_sublist some_
    exact ⟨formedT, mem, removed, fun _ => formedT.canonical_of_kind_ne_bits (by simp [kind])⟩
  | bits b =>
    obtain ⟨formedB, removed, tests⟩ := b.erase_spec v formed
    have mem (u : UInt16) : u ∈ (b.erase v).1 ↔ u ≠ v ∧ u ∈ b := by
      rw [BitSet.mem_def, tests, Bool.and_eq_true, Bool.not_eq_true', decide_eq_false_iff_not,
        UInt16.toNat_inj]
      rfl
    simp only [erase]
    split
    · have settled := settled_ofBits (b.erase v).1 _ formedB mem
      refine ⟨settled.canonical.1, settled.mem_iff, ?_, fun _ => settled.canonical⟩
      rw [removed]
      rfl
    · rename_i missing
      have absent : v ∉ b := by
        rw [removed] at missing
        exact missing
      refine ⟨formedB, mem, ?_, fun canonical => canonical.of_more rfl formedB ?_⟩
      · rw [removed]
        rfl
      · intro u old
        exact (mem u).mpr ⟨fun same => absent (same ▸ old), old⟩
  | runs r =>
    obtain ⟨formedR, mem, removed⟩ := r.erase_spec v formed
    have formedC : (runs (r.erase v).1).WellFormed := formedR
    exact ⟨formedC, mem, removed, fun _ => formedC.canonical_of_kind_ne_bits (by simp [kind])⟩

/-! Appending. -/

theorem max?_spec (formed : c.WellFormed) (m : UInt16) (found : c.max? = some m) :
    m ∈ c ∧ ∀ u ∈ c, u ≤ m := by
  refine ⟨?_, formed.le_max? m found⟩
  rw [formed.max?_eq] at found
  rw [← formed.mem_values, ← Array.mem_toList_iff]
  exact List.mem_of_mem_getLast? found

theorem pushByInsert_eq (formed : c.WellFormed) (v : UInt16) (last : ∀ u ∈ c, u ≤ v) :
    c.pushByInsert v = .ok (c.insert v).1 := by
  rw [pushByInsert]
  cases top : c.max? with
  | none => rfl
  | some m =>
    have below := last m (max?_spec formed m top).1
    simp only
    rw [if_neg (UInt16.not_lt.mpr below)]

theorem exists_max? (formed : c.WellFormed) {u : UInt16} (member : u ∈ c) :
    ∃ m, c.max? = some m ∧ u ≤ m := by
  cases top : c.max? with
  | none => exact absurd member (formed.max?_eq_none.mp top u)
  | some m => exact ⟨m, rfl, (max?_spec formed m top).2 u member⟩

theorem push_eq (formed : c.WellFormed) (v : UInt16) (last : ∀ u ∈ c, u ≤ v) :
    c.push v = .ok (c.insert v).1 := by
  cases c with
  | array s =>
    rw [push]
    split
    · rename_i short
      rw [s.push_eq v formed.ascending last, insert, if_pos short]
      rfl
    · exact pushByInsert_eq formed v last
  | bits b => exact pushByInsert_eq formed v last
  | runs r =>
    rw [push, r.push_eq v formed last]
    rfl

theorem push_error (c : Container) (v m : UInt16) (top : c.max? = some m) (below : v < m) :
    c.push v = .error (.pushBelowLast v m) := by
  have checked : c.pushByInsert v = .error (.pushBelowLast v m) := by
    rw [pushByInsert, top]
    exact if_pos below
  cases c with
  | array s =>
    rw [push]
    split
    · rw [s.push_error v m top below]
      rfl
    · exact checked
  | bits b => exact checked
  | runs r =>
    rw [push, r.push_error v m top below]
    rfl

theorem eq_insert_of_push (formed : c.WellFormed) (v : UInt16) (done : c.push v = .ok d) :
    d = (c.insert v).1 := by
  by_cases last : ∀ u ∈ c, u ≤ v
  · rw [push_eq formed v last] at done
    exact (Except.ok.inj done).symm
  · simp only [not_forall] at last
    obtain ⟨u, member, above⟩ := last
    obtain ⟨m, top, most⟩ := exists_max? formed member
    rw [push_error c v m top (UInt16.lt_of_lt_of_le (UInt16.not_le.mp above) most)] at done
    contradiction

/-! Ranges. -/

/-- What a container is after a range was added or removed. -/
structure Changed (c d : Container) (keep : UInt16 → Prop) : Prop where
  formed : d.WellFormed
  mem_iff : ∀ v, v ∈ d ↔ keep v
  canonical : c.Canonical → d.Canonical

theorem Settled.changed {keep : UInt16 → Prop} (settled : Settled d keep) : Changed c d keep :=
  ⟨settled.canonical.1, settled.mem_iff, fun _ => settled.canonical⟩

theorem WellFormed.isFull_of_forall_mem (formed : c.WellFormed)
    (all : ∀ v, v ∈ c) : c.isFull = true := by
  have size : c.cardinality = 65536 :=
    formed.ordered.cardinality_eq wellFormed_full.ordered fun v =>
      iff_of_true (all v) (mem_full v)
  cases c with
  | array s =>
    have short : s.length ≤ 4096 := formed.short
    rw [cardinality] at size
    omega
  | bits b => exact beq_iff_eq.mpr (UInt64.toNat_inj.mp size)
  | runs r =>
    refine (RunSet.isFull_iff r).mpr (RunSet.ext formed RunSet.wellFormed_full fun v => ?_)
    exact iff_of_true (all v) (RunSet.mem_full v)

theorem mem_span_full (v : UInt16) : v.toNat ∈ (⟨0, domain⟩ : Span) :=
  ⟨Nat.zero_le _, v.toNat_lt⟩

theorem bits_insertRange (b : BitSet) (range : Span) (formed : b.WellFormed)
    (inside : range.stop ≤ 65536) :
    ∃ a, b.insertRange range = .ok a ∧ a.WellFormed ∧
      ∀ v, v ∈ a ↔ v ∈ b ∨ v.toNat ∈ range := by
  obtain ⟨a, done, formedA, tests⟩ :=
    BitSet.updateRange_spec BitSet.bitwise_or b range formed inside
  refine ⟨a, done, formedA, fun v => ?_⟩
  rw [BitSet.mem_def, tests, Bool.or_eq_true, decide_eq_true_eq]
  rfl

theorem insertRange_spec (formed : c.WellFormed) (range : Span) (inside : range.stop ≤ 65536) :
    ∃ d, c.insertRange range = .ok d ∧ Changed c d (fun v => v ∈ c ∨ v.toNat ∈ range) := by
  rw [insertRange.eq_def]
  split
  · rename_i nothing
    have none := range.isEmpty_iff.mp nothing
    exact ⟨c, rfl, formed, fun v => by simp [none], id⟩
  · rw [if_neg (show ¬ domain < range.stop from Nat.not_lt.mpr inside)]
    have whole (full : range = ⟨0, domain⟩) :
        Changed c .full (fun v => v ∈ c ∨ v.toNat ∈ range) := by
      subst full
      exact (settled_full _ fun v => Or.inr (mem_span_full v)).changed
    cases c with
    | array s =>
      obtain ⟨sorted, mem, length⟩ := s.insertRange_spec range formed.ascending inside
      simp only
      split
      · rename_i full
        exact ⟨_, rfl, whole full⟩
      · split
        · rename_i few
          have formedT : (s.insertRange range).WellFormed := ⟨sorted, Nat.le_trans length.le few⟩
          exact ⟨_, rfl, (settled_array _ _ formedT mem).changed⟩
        · rename_i many
          obtain ⟨a, done, formedA, memA⟩ := bits_insertRange (.ofSortedValues s.values) range
            (BitSet.wellFormed_ofWords _) inside
          have memBits (v : UInt16) : v ∈ a ↔ v ∈ s ∨ v.toNat ∈ range := by
            rw [memA, BitSet.mem_ofSortedValues]
            rfl
          refine ⟨bits a, by rw [done]; rfl, formedA, memBits, fun _ => ⟨formedA, ?_⟩⟩
          rintro b same
          obtain rfl := Container.bits.inj same
          have formedC : (bits a).WellFormed := formedA
          have size := formedC.cardinality_eq_length (s.insertRange range).values.toList sorted
            fun v => by
              rw [Array.mem_toList_iff, ← ArraySet.mem_def, mem]
              exact (memBits v).symm
          have long := Nat.lt_of_not_le many
          rw [← length, ArraySet.length, ← Array.length_toList, ← size] at long
          exact long
    | bits b =>
      obtain ⟨a, done, formedA, mem⟩ := bits_insertRange b range formed inside
      refine ⟨bits a, congrArg (· >>= fun b => pure (bits b)) done, formedA, mem, fun canonical => ?_⟩
      exact canonical.of_more rfl formedA fun v old => (mem v).mpr (Or.inl old)
    | runs r =>
      simp only
      split
      · rename_i full
        exact ⟨_, rfl, whole full⟩
      · obtain ⟨t, done, formedT, mem⟩ := r.insertRange_spec range formed inside
        have formedC : (runs t).WellFormed := formedT
        refine ⟨runs t, by rw [done]; rfl, formedC, mem, fun _ => ?_⟩
        exact formedC.canonical_of_kind_ne_bits (by simp [kind])

theorem eraseRange_of_isEmpty (c : Container) {range : Span} (nothing : range.isEmpty = true) :
    c.eraseRange range = .ok c := by
  rw [eraseRange.eq_def, if_pos nothing]

theorem eraseRange_spec (formed : c.WellFormed) (range : Span) (inside : range.stop ≤ 65536) :
    ∃ d, c.eraseRange range = .ok d ∧ Changed c d (fun v => v ∈ c ∧ v.toNat ∉ range) := by
  rw [eraseRange.eq_def]
  split
  · rename_i nothing
    have none := range.isEmpty_iff.mp nothing
    exact ⟨c, rfl, formed, fun v => by simp [none], id⟩
  · rw [if_neg (show ¬ domain < range.stop from Nat.not_lt.mpr inside)]
    cases c with
    | array s =>
      obtain ⟨some_, mem⟩ := s.eraseRange_spec range formed.ascending
      exact ⟨_, rfl, (settled_array _ _ (formed.of_sublist some_) mem).changed⟩
    | bits b =>
      obtain ⟨a, done, formedA, tests⟩ :=
        BitSet.updateRange_spec BitSet.bitwise_andNot b range formed inside
      refine ⟨ofBits a, ?_, (settled_ofBits a _ formedA fun v => ?_).changed⟩
      · exact congrArg (· >>= fun b => pure (ofBits b)) done
      · rw [BitSet.mem_def, tests, Bool.and_eq_true, Bool.not_eq_true', decide_eq_false_iff_not]
        rfl
    | runs r =>
      obtain ⟨formedR, mem⟩ := r.eraseRange_spec range formed
      have formedC : (runs (r.eraseRange range)).WellFormed := formedR
      refine ⟨_, rfl, formedC, mem, fun _ => ?_⟩
      exact formedC.canonical_of_kind_ne_bits (by simp [kind])

theorem ofRange_spec (range : Span) (inside : range.stop ≤ 65536) :
    ∃ c, ofRange range = .ok c ∧ Settled c (fun v => v.toNat ∈ range) := by
  rw [ofRange]
  split
  · rename_i nothing
    have none := range.isEmpty_iff.mp nothing
    exact ⟨empty, rfl, canonical_empty, fun v => by simp [none], fun _ => rfl⟩
  · rename_i something
    have forwards : range.start < range.stop := by simpa [Span.isEmpty] using something
    have starts := Run.start_ofSpan range (by omega)
    have stops := Run.stop_ofSpan range forwards inside
    rw [RunSet.ofRange, if_neg something]
    apply settled_ofRuns
    · exact Run.canonical_singleton _ (by omega)
    · intro v
      rw [RunSet.mem_def, Span.mem_def]
      simp [starts, stops]

/-- Without runs, the values stay and the container stays canonical. -/
theorem removeRunCompression_spec (formed : c.WellFormed) :
    ∃ d, c.removeRunCompression = .ok (d, c.kind == .runs) ∧ Changed c d (fun v => v ∈ c) ∧
      d.kind ≠ .runs := by
  cases c with
  | array s => exact ⟨_, rfl, ⟨formed, fun v => Iff.rfl, id⟩, by simp [kind]⟩
  | bits b => exact ⟨_, rfl, ⟨formed, fun v => Iff.rfl, id⟩, by simp [kind]⟩
  | runs r =>
    have formedC : (runs r).WellFormed := formed
    rw [removeRunCompression]
    split
    · rename_i few
      refine ⟨_, rfl, (settled_array _ _ ⟨formedC.values_ascending, ?_⟩ formedC.mem_values).changed,
        by simp [kind]⟩
      exact formedC.size_values.trans_le few
    · rename_i many
      obtain ⟨b, done, formedB, mem⟩ := r.toBitSet_spec formed
      have formedD : (bits b).WellFormed := formedB
      refine ⟨bits b, by rw [done]; rfl, ⟨formedB, mem, fun _ => ⟨formedB, ?_⟩⟩, by simp [kind]⟩
      rintro b' same
      obtain rfl := Container.bits.inj same
      have size := formedD.ordered.cardinality_eq formedC.ordered mem
      exact Nat.lt_of_lt_of_eq (Nat.lt_of_not_le many) size.symm

end Roaring.Container
