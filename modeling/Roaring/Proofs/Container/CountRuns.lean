import Roaring.Proofs.Container.Convert
import Roaring.Proofs.RunSet.Update
import Roaring.Proofs.Words.RunStarts

/-! Runs are counted alike in all encodings: by the values that start one, those whose predecessor
is missing. So the count, like the cardinality, is fixed by the values alone; and with it the
smallest encoding. -/
namespace Roaring

/-- The values that start a run, in order. -/
structure RunStarts (starts : List UInt16) (held : UInt16 → Prop) : Prop where
  ascending : starts.Pairwise (· < ·)
  mem_iff : ∀ v, v ∈ starts ↔ held v ∧ ∀ u, u.toNat + 1 = v.toNat → ¬held u

theorem RunStarts.length_eq {xs ys : List UInt16} {held held' : UInt16 → Prop}
    (first : RunStarts xs held) (second : RunStarts ys held') (same : ∀ v, held v ↔ held' v) :
    xs.length = ys.length := by
  congr 1
  apply List.Pairwise.eq_of_mem_iff first.ascending second.ascending
  intro v
  simp only [first.mem_iff, second.mem_iff, same]

/-! Lists. -/

namespace ArraySet

def startsAfter : UInt16 → List UInt16 → List UInt16
  | _, [] => []
  | previous, v :: rest =>
    if v.toNat = previous.toNat + 1 then startsAfter v rest else v :: startsAfter v rest

theorem countRunsAfter_eq (previous : UInt16) (rest : List UInt16) (n : Nat) :
    countRunsAfter previous rest n = n + (startsAfter previous rest).length := by
  induction rest generalizing previous n with
  | nil => rfl
  | cons v rest ih =>
    rw [countRunsAfter, startsAfter, ih]
    split
    · rfl
    · rw [List.length_cons]
      omega

theorem startsAfter_sublist (previous : UInt16) (rest : List UInt16) :
    (startsAfter previous rest).Sublist rest := by
  induction rest generalizing previous with
  | nil => exact List.Sublist.slnil
  | cons v rest ih =>
    rw [startsAfter]
    split
    · exact (ih v).cons v
    · exact (ih v).cons_cons v

theorem mem_startsAfter (previous : UInt16) (rest : List UInt16)
    (sorted : (previous :: rest).Pairwise (· < ·)) (v : UInt16) :
    v ∈ startsAfter previous rest ↔
      v ∈ rest ∧ ∀ u, u.toNat + 1 = v.toNat → u ∉ previous :: rest := by
  induction rest generalizing previous with
  | nil => simp [startsAfter]
  | cons w rest ih =>
    obtain ⟨first, sorted⟩ := List.pairwise_cons.mp sorted
    have step := UInt16.lt_iff_toNat_lt.mp (first w List.mem_cons_self)
    have above (x : UInt16) (later : x ∈ rest) : w.toNat < x.toNat :=
      UInt16.lt_iff_toNat_lt.mp ((List.pairwise_cons.mp sorted).1 x later)
    -- a later value has neither `previous` nor itself before it; `w` has at most `previous`
    have late : v ∈ startsAfter w rest ↔
        v ∈ rest ∧ ∀ u, u.toNat + 1 = v.toNat → u ∉ previous :: w :: rest := by
      rw [ih w sorted]
      refine and_congr_right fun later => forall₂_congr fun u before => ?_
      have other : u ≠ previous := by
        rintro rfl
        have := above v later
        omega
      rw [List.mem_cons (b := previous), or_iff_right other]
    have here : (∀ u, u.toNat + 1 = w.toNat → u ∉ previous :: w :: rest) ↔
        w.toNat ≠ previous.toNat + 1 := by
      constructor
      · intro alone next
        exact alone previous next.symm List.mem_cons_self
      · intro apart u before member
        rcases List.mem_cons.mp member with rfl | member
        · exact apart before.symm
        · rcases List.mem_cons.mp member with rfl | later
          · omega
          · have := above u later
            omega
    rw [startsAfter, List.mem_cons, or_and_right, ← late]
    split
    · rename_i next
      refine (or_iff_right ?_).symm
      rintro ⟨rfl, alone⟩
      exact here.mp alone next
    · rename_i apart
      rw [List.mem_cons]
      refine or_congr_left ⟨?_, And.left⟩
      rintro rfl
      exact ⟨rfl, here.mpr apart⟩

theorem runStarts (s : ArraySet) (formed : s.WellFormed) :
    ∃ starts, RunStarts starts (· ∈ s) ∧ starts.length = s.countRuns := by
  have sorted := formed.ascending
  have mem (v : UInt16) : v ∈ s ↔ v ∈ s.values.toList := Array.mem_toList_iff.symm
  simp only [mem, countRuns]
  cases parts : s.values.toList with
  | nil => exact ⟨[], ⟨List.Pairwise.nil, by simp⟩, rfl⟩
  | cons w rest =>
    rw [parts] at sorted
    obtain ⟨least, ascending⟩ := List.pairwise_cons.mp sorted
    refine ⟨w :: startsAfter w rest, ⟨?_, fun v => ?_⟩, ?_⟩
    · exact sorted.sublist ((startsAfter_sublist w rest).cons_cons w)
    · rw [List.mem_cons, mem_startsAfter w rest sorted, List.mem_cons, or_and_right]
      refine or_congr_left ⟨?_, And.left⟩
      rintro rfl
      refine ⟨rfl, fun u before member => ?_⟩
      rcases List.mem_cons.mp member with rfl | later
      · omega
      · have := UInt16.lt_iff_toNat_lt.mp (least u later)
        omega
    · exact (Nat.add_comm _ 1).trans (countRunsAfter_eq w rest 1).symm

end ArraySet

/-! Runs. -/

theorem Run.mem_starts (runs : List Run) (canonical : Canonical runs) (v : UInt16) :
    v ∈ runs.map Run.start ↔
      Covers runs v.toNat ∧ ∀ u : UInt16, u.toNat + 1 = v.toNat → ¬Covers runs u.toNat := by
  induction runs with
  | nil => simp
  | cons r runs ih =>
    have below := r.start_lt_stop
    have inside := canonical.stop_le
    have past := canonical.stop_lt
    rw [List.map_cons, List.mem_cons, ih canonical.tail]
    constructor
    · rintro (rfl | ⟨covered, alone⟩)
      · exact ⟨covers_start List.mem_cons_self,
          fun u before => canonical.not_covers_of_lt (by omega)⟩
      · refine ⟨(covers_cons r runs _).mpr (Or.inr covered), fun u before either => ?_⟩
        have far := past _ covered
        rcases (covers_cons r runs _).mp either with ⟨low, high⟩ | later
        · omega
        · exact alone u before later
    · rintro ⟨covered, alone⟩
      rcases (covers_cons r runs _).mp covered with ⟨low, high⟩ | later
      · refine Or.inl (UInt16.toNat_inj.mp (Nat.le_antisymm ?_ low))
        by_contra inner
        have before := toNat_pred v (by omega)
        exact alone (v - 1) (by omega) ((covers_cons r runs _).mpr (Or.inl (by omega)))
      · exact Or.inr ⟨later, fun u before held =>
          alone u before ((covers_cons r runs _).mpr (Or.inr held))⟩

theorem RunSet.runStarts (s : RunSet) (formed : s.WellFormed) :
    ∃ starts, RunStarts starts (· ∈ s) ∧ starts.length = s.countRuns := by
  refine ⟨s.runs.toList.map Run.start, ⟨?_, fun v => ?_⟩, ?_⟩
  · rw [List.pairwise_map]
    refine formed.1.imp fun {a b} apart => UInt16.lt_iff_toNat_lt.mpr ?_
    have := a.start_lt_stop
    omega
  · exact Run.mem_starts _ formed v
  · rw [List.length_map, Array.length_toList, countRuns]

/-! Bits. -/

theorem BitSet.runStarts (b : BitSet) :
    ∃ starts, RunStarts starts (· ∈ b) ∧ starts.length = b.countRuns := by
  refine ⟨b.words.startWords.positions.toList, ⟨b.words.startWords.positions_ascending, ?_⟩, ?_⟩
  · intro v
    rw [Array.mem_toList_iff, Words.mem_positions, Words.test_startWords _ _ v.toNat_lt,
      Bool.and_eq_true, ← mem_def, Bool.not_eq_true', ← Bool.not_eq_true, Bool.and_eq_true,
      decide_eq_true_eq]
    refine and_congr_right fun _ => ⟨fun alone u before member => alone ?_, ?_⟩
    · exact ⟨by omega, by rwa [← before]⟩
    · rintro alone ⟨some, member⟩
      have before := Run.toNat_pred v some
      exact alone (v - 1) (by omega) ((mem_def b _).mpr (by rwa [before]))
  · rw [Array.length_toList, Words.size_positions, countRuns, Words.countRuns_eq]

namespace Container

variable {c d : Container}

theorem WellFormed.runStarts (formed : c.WellFormed) :
    ∃ starts, RunStarts starts (· ∈ c) ∧ starts.length = c.countRuns := by
  cases c with
  | array s => exact s.runStarts formed
  | bits b => exact b.runStarts
  | runs r => exact r.runStarts formed

theorem WellFormed.countRuns_eq (formedC : c.WellFormed) (formedD : d.WellFormed)
    (same : ∀ v, v ∈ c ↔ v ∈ d) : c.countRuns = d.countRuns := by
  obtain ⟨xs, first, lengthC⟩ := formedC.runStarts
  obtain ⟨ys, second, lengthD⟩ := formedD.runStarts
  rw [← lengthC, ← lengthD, first.length_eq second same]

end Container

end Roaring
