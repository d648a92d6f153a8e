import Mathlib.Data.List.Sort
import Roaring.Proofs.Container.Members
import Roaring.Proofs.Splice

/-! Changes of a list of values. Bisection finds where a value or a range stands; what comes before
it is smaller and what comes behind it is greater, so the list stays ascending. -/
namespace Roaring.ArraySet

def Ascending (s : ArraySet) : Prop := s.values.toList.Pairwise (· < ·)

theorem Ascending.ext {s t : ArraySet} (first : s.Ascending) (second : t.Ascending)
    (same : ∀ v, v ∈ s ↔ v ∈ t) : s = t := by
  obtain ⟨values⟩ := s
  obtain ⟨others⟩ := t
  congr 1
  apply Array.toList_inj.mp
  apply List.Pairwise.eq_of_mem_iff first second
  intro v
  rw [Array.mem_toList_iff, Array.mem_toList_iff]
  exact same v

/-! Single values. -/

theorem fits_locate (s : ArraySet) (v : UInt16) (sorted : s.Ascending) :
    (s.locate v).Fits (fun x => compare x v) s.values.toList := by
  apply Search.fits_locate
  apply sorted.imp
  intro a b less notPast
  rw [ne_eq, Std.compare_eq_gt] at notPast
  rw [Std.compare_eq_lt]
  rw [UInt16.lt_iff_toNat_lt] at *
  omega

theorem contains_iff (s : ArraySet) (v : UInt16) (sorted : s.Ascending) :
    s.contains v = true ↔ v ∈ s := by
  have fits := s.fits_locate v sorted
  rw [mem_def, ← Array.mem_toList_iff, contains]
  cases place : s.locate v with
  | hit i =>
    rw [place] at fits
    obtain ⟨front, a, back, parts, -, equal, -, -⟩ := Search.Hit.split fits
    obtain rfl := Std.compare_eq_iff_eq.mp equal
    simp [parts]
  | gap i =>
    rw [place] at fits
    obtain ⟨front, back, parts, -, before, behind⟩ := Search.Gap.split fits
    have absent : v ∉ s.values.toList := by
      rw [parts, List.mem_append]
      rintro (early | late)
      · exact UInt16.lt_irrefl v (Std.compare_eq_lt.mp (before v early))
      · exact UInt16.lt_irrefl v (Std.compare_eq_gt.mp (behind v late))
    simp [absent]

theorem insert_spec (s : ArraySet) (v : UInt16) (sorted : s.Ascending) :
    (s.insert v).1.Ascending ∧ (∀ u, u ∈ (s.insert v).1 ↔ u = v ∨ u ∈ s) ∧
      ((s.insert v).2 = true ↔ v ∉ s) ∧ (s.insert v).1.length ≤ s.length + 1 := by
  have fits := s.fits_locate v sorted
  have present := s.contains_iff v sorted
  rw [contains] at present
  rw [insert]
  cases place : s.locate v with
  | hit i =>
    rw [place] at present
    have member : v ∈ s := present.mp rfl
    refine ⟨sorted, fun u => ?_, by simp [member], Nat.le_succ _⟩
    constructor
    · exact Or.inr
    · rintro (rfl | found)
      · exact member
      · exact found
  | gap i =>
    rw [place] at present fits
    have absent : v ∉ s := fun member => by simpa using present.mpr member
    obtain ⟨front, back, parts, index, before, behind⟩ := Search.Gap.split fits
    have inserted := toList_insertIdx_of_parts parts index v
    refine ⟨?_, fun u => ?_, by simp [absent], ?_⟩
    · rw [Ascending, inserted]
      rw [Ascending, parts] at sorted
      obtain ⟨sortedFront, sortedBack, between⟩ := List.pairwise_append.mp sorted
      refine List.pairwise_append.mpr ⟨sortedFront, List.pairwise_cons.mpr ⟨?_, sortedBack⟩, ?_⟩
      · exact fun a late => Std.compare_eq_gt.mp (behind a late)
      · intro a early b member
        rcases List.mem_cons.mp member with rfl | late
        · exact Std.compare_eq_lt.mp (before a early)
        · exact between a early b late
    · rw [mem_def, mem_def, ← Array.mem_toList_iff, ← Array.mem_toList_iff, inserted, parts]
      simp only [List.mem_append, List.mem_cons]
      tauto
    · have long := congrArg List.length inserted
      have short := congrArg List.length parts
      simp only [Array.length_toList, List.length_append, List.length_cons] at long short
      simp only [length]
      omega

theorem erase_spec (s : ArraySet) (v : UInt16) (sorted : s.Ascending) :
    (s.erase v).1.values.toList.Sublist s.values.toList ∧
      (∀ u, u ∈ (s.erase v).1 ↔ u ≠ v ∧ u ∈ s) ∧ ((s.erase v).2 = true ↔ v ∈ s) := by
  have fits := s.fits_locate v sorted
  have present := s.contains_iff v sorted
  rw [contains] at present
  rw [erase]
  cases place : s.locate v with
  | hit i =>
    rw [place] at present fits
    have member : v ∈ s := present.mp rfl
    obtain ⟨front, a, back, parts, index, equal, before, behind⟩ := Search.Hit.split fits
    obtain rfl := Std.compare_eq_iff_eq.mp equal
    have erased := toList_eraseIdx_of_parts parts index
    refine ⟨?_, fun u => ?_, by simp [member]⟩
    · rw [erased, parts]
      exact (List.sublist_cons_self _ _).append_left _
    · have other : u ∈ front ++ back → u ≠ a := by
        rintro found rfl
        rcases List.mem_append.mp found with early | late
        · exact UInt16.lt_irrefl u (Std.compare_eq_lt.mp (before u early))
        · exact UInt16.lt_irrefl u (Std.compare_eq_gt.mp (behind u late))
      rw [mem_def, mem_def, ← Array.mem_toList_iff, ← Array.mem_toList_iff, erased, parts]
      simp only [List.mem_append, List.mem_cons] at other ⊢
      tauto
  | gap i =>
    rw [place] at present
    have absent : v ∉ s := fun member => by simpa using present.mpr member
    refine ⟨List.Sublist.refl _, fun u => ?_, by simp [absent]⟩
    constructor
    · intro found
      exact ⟨fun same => absent (same ▸ found), found⟩
    · exact And.right

theorem le_back? (s : ArraySet) (sorted : s.Ascending) (m : UInt16)
    (top : s.values.back? = some m) (u : UInt16) (member : u ∈ s) : u ≤ m := by
  rw [mem_def, ← Array.mem_toList_iff] at member
  rw [← Array.getLast?_toList] at top
  obtain ⟨before, parts⟩ := List.getLast?_eq_some_iff.mp top
  rw [Ascending, parts] at sorted
  rw [parts, List.mem_append, List.mem_singleton] at member
  rcases member with early | rfl
  · exact UInt16.le_of_lt ((List.pairwise_append.mp sorted).2.2 u early m (by simp))
  · exact UInt16.le_refl _

theorem push_above (s : ArraySet) (v : UInt16) (sorted : s.Ascending) (above : ∀ u ∈ s, u < v) :
    (⟨s.values.push v⟩ : ArraySet) = (s.insert v).1 := by
  obtain ⟨sortedInsert, memInsert, -, -⟩ := s.insert_spec v sorted
  apply Ascending.ext _ sortedInsert
  · intro u
    rw [memInsert, mem_def, Array.mem_push, or_comm]
    rfl
  · rw [Ascending, Array.toList_push]
    refine List.pairwise_append.mpr ⟨sorted, List.pairwise_singleton _ _, ?_⟩
    intro a member b here
    rw [List.mem_singleton.mp here]
    exact above a (Array.mem_toList_iff.mp member)

theorem insert_of_mem (s : ArraySet) (v : UInt16) (sorted : s.Ascending) (member : v ∈ s) :
    (s.insert v).1 = s := by
  obtain ⟨sortedInsert, memInsert, -, -⟩ := s.insert_spec v sorted
  apply sortedInsert.ext sorted
  intro u
  rw [memInsert]
  constructor
  · rintro (rfl | found)
    · exact member
    · exact found
  · exact Or.inr

theorem push_eq (s : ArraySet) (v : UInt16) (sorted : s.Ascending) (last : ∀ u ∈ s, u ≤ v) :
    s.push v = .ok (s.insert v).1 := by
  rw [push]
  cases top : s.values.back? with
  | none =>
    have none : s.values = #[] := by simpa using top
    have above (u : UInt16) (member : u ∈ s) : u < v := by
      rw [mem_def, none] at member
      simp at member
    exact congrArg Except.ok (s.push_above v sorted above)
  | some m =>
    have member : m ∈ s := Array.mem_of_back? top
    have greatest := s.le_back? sorted m top
    simp only
    split
    · rename_i more
      have above (u : UInt16) (found : u ∈ s) : u < v :=
        UInt16.lt_of_le_of_lt (greatest u found) more
      exact congrArg Except.ok (s.push_above v sorted above)
    · rename_i notMore
      have same : v = m := UInt16.le_antisymm (UInt16.not_lt.mp notMore) (last m member)
      rw [if_pos same, same, s.insert_of_mem m sorted member]

theorem push_error (s : ArraySet) (v m : UInt16) (top : s.max? = some m) (below : v < m) :
    s.push v = .error (.pushBelowLast v m) := by
  rw [max?] at top
  rw [push, top]
  simp only
  rw [if_neg (UInt16.not_lt.mpr (UInt16.le_of_lt below)), if_neg (UInt16.ne_of_lt below)]

/-! Ranges. -/

theorem bounds_spec (s : ArraySet) (range : Span) (sorted : s.Ascending)
    (forwards : range.start ≤ range.stop) :
    ∃ front middle back, s.values.toList = front ++ middle ++ back ∧
      front.length = (s.bounds range).1 ∧
      (s.bounds range).1 + middle.length = (s.bounds range).2 ∧
      (∀ v ∈ front, v.toNat < range.start) ∧ (∀ v ∈ middle, v.toNat ∈ range) ∧
      ∀ v ∈ back, range.stop ≤ v.toNat := by
  have falling (bound : Nat) :
      Search.Falling (fun v : UInt16 => decide (v.toNat < bound)) s.values.toList := by
    apply sorted.imp
    intro a b less passes
    rw [UInt16.lt_iff_toNat_lt] at less
    rw [decide_eq_true_eq] at *
    omega
  have low := Search.parts_partitionPoint s.values _ (falling range.start)
  obtain ⟨-, high⟩ := Search.parts_partitionPointFrom s.values (s.bounds range).1 _
    (falling range.stop) (low.inside.trans_eq Array.length_toList) (by
      intro a member
      have := low.passes a member
      rw [decide_eq_true_eq] at *
      omega)
  obtain ⟨front, middle, back, parts, indexLow, indexHigh, before, inside, behind⟩ :=
    low.window high (by
      intro a _ passes
      rw [decide_eq_true_eq] at *
      omega)
  refine ⟨front, middle, back, parts, indexLow, indexHigh, ?_, ?_, ?_⟩
  · exact fun v member => by simpa using before v member
  · exact fun v member => by simpa [Span.mem_def] using inside v member
  · exact fun v member => by simpa using behind v member

theorem ascending_range (start length : Nat) (inside : start + length ≤ 65536) :
    ((List.range' start length).map Nat.toUInt16).Pairwise (· < ·) := by
  rw [List.pairwise_map]
  apply (List.pairwise_lt_range' (s := start) (n := length)).imp_of_mem
  intro a b memberA memberB less
  rw [List.mem_range'_1] at memberA memberB
  rwa [UInt16.lt_iff_toNat_lt, toNat_toUInt16 (by omega), toNat_toUInt16 (by omega)]

theorem mem_range (range : Span) (inside : range.stop ≤ 65536) (v : UInt16) :
    v ∈ (List.range' range.start range.length).map Nat.toUInt16 ↔ v.toNat ∈ range := by
  rw [List.mem_map, Span.mem_def, Span.length]
  constructor
  · rintro ⟨n, member, rfl⟩
    rw [List.mem_range'_1] at member
    rw [toNat_toUInt16 (by omega)]
    omega
  · intro member
    refine ⟨v.toNat, ?_, by simp⟩
    rw [List.mem_range'_1]
    omega

/-- Adding a range leaves as many values as were foretold. -/
theorem insertRange_spec (s : ArraySet) (range : Span) (sorted : s.Ascending)
    (inside : range.stop ≤ 65536) :
    (s.insertRange range).Ascending ∧
      (∀ v, v ∈ s.insertRange range ↔ v ∈ s ∨ v.toNat ∈ range) ∧
      (s.insertRange range).length = s.lengthAfterInsertRange range := by
  rw [insertRange, lengthAfterInsertRange]
  split
  · rename_i nothing
    have none := range.isEmpty_iff.mp nothing
    exact ⟨sorted, fun v => by simp [none], rfl⟩
  · rename_i something
    have forwards : range.start < range.stop := by simpa [Span.isEmpty] using something
    obtain ⟨front, middle, back, parts, indexLow, indexHigh, before, between, behind⟩ :=
      s.bounds_spec range sorted (Nat.le_of_lt forwards)
    have spliced := toList_splice parts indexLow indexHigh
      ((Array.range' range.start range.length).map Nat.toUInt16)
    rw [Array.toList_map, Array.toList_range'] at spliced
    simp only [mem_def, Ascending, length, ← Array.mem_toList_iff, ← Array.length_toList]
    refine ⟨?_, fun v => ?_, ?_⟩
    · rw [spliced]
      rw [Ascending, parts] at sorted
      obtain ⟨sortedFirst, sortedBack, apartBack⟩ := List.pairwise_append.mp sorted
      have sortedFront := (List.pairwise_append.mp sortedFirst).1
      refine List.pairwise_append.mpr ⟨List.pairwise_append.mpr ⟨sortedFront, ?_, ?_⟩,
        sortedBack, ?_⟩
      · exact ascending_range _ _ (by rw [Span.length]; omega)
      · intro a early b member
        have := before a early
        have := (mem_range range inside b).mp member
        rw [Span.mem_def] at this
        rw [UInt16.lt_iff_toNat_lt]
        omega
      · intro a member b late
        rcases List.mem_append.mp member with early | new
        · exact apartBack a (List.mem_append_left _ early) b late
        · have := behind b late
          have := (mem_range range inside a).mp new
          rw [Span.mem_def] at this
          rw [UInt16.lt_iff_toNat_lt]
          omega
    · rw [spliced, parts]
      simp only [List.mem_append, mem_range range inside]
      constructor
      · tauto
      · rintro (((early | mid) | late) | new)
        · exact Or.inl (Or.inl early)
        · exact Or.inl (Or.inr (between v mid))
        · exact Or.inr late
        · exact Or.inl (Or.inr new)
    · rw [spliced, parts]
      simp only [List.length_append, List.length_map, List.length_range']
      omega

theorem eraseRange_spec (s : ArraySet) (range : Span) (sorted : s.Ascending) :
    (s.eraseRange range).values.toList.Sublist s.values.toList ∧
      ∀ v, v ∈ s.eraseRange range ↔ v ∈ s ∧ v.toNat ∉ range := by
  rw [eraseRange]
  split
  · rename_i nothing
    have none := range.isEmpty_iff.mp nothing
    exact ⟨List.Sublist.refl _, fun v => by simp [none]⟩
  · rename_i something
    have forwards : range.start < range.stop := by simpa [Span.isEmpty] using something
    obtain ⟨front, middle, back, parts, indexLow, indexHigh, before, between, behind⟩ :=
      s.bounds_spec range sorted (Nat.le_of_lt forwards)
    have spliced := toList_splice parts indexLow indexHigh #[]
    rw [Array.toList_empty, List.append_nil] at spliced
    simp only [mem_def, ← Array.mem_toList_iff]
    refine ⟨?_, fun v => ?_⟩
    · rw [spliced, parts]
      exact (List.sublist_append_left _ _).append_right _
    · rw [spliced, parts]
      simp only [List.mem_append]
      constructor
      · rintro (early | late)
        · refine ⟨Or.inl (Or.inl early), fun found => ?_⟩
          have := before v early
          rw [Span.mem_def] at found
          omega
        · refine ⟨Or.inr late, fun found => ?_⟩
          have := behind v late
          rw [Span.mem_def] at found
          omega
      · rintro ⟨(early | mid) | late, outside⟩
        · exact Or.inl early
        · exact absurd (between v mid) outside
        · exact Or.inr late

end Roaring.ArraySet
