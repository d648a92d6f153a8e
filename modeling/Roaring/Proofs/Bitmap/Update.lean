import Roaring.Bitmap.Update
import Roaring.Proofs.Container.Update
import Roaring.Proofs.Bitmap.Entries

/-! Changes of a bitmap. The key of a value finds an entry or the gap for one; the entries around it
keep their keys, and an entry that loses its last value goes. -/
namespace Roaring.Bitmap

variable {g : Grade} {b : Bitmap}

def Has (b : Bitmap) (v : UInt32) : Prop := Holds b.entries.toList (split v).1 (split v).2

/-! The entry of a key. -/

theorem fits_locate (ascending : b.entries.toList.Pairwise (fun d e => d.key < e.key))
    (key : UInt16) : (b.locate key).Fits (fun e => compare e.key key) b.entries.toList := by
  apply Search.fits_locate
  apply ascending.imp
  intro d e less notPast
  rw [ne_eq, Std.compare_eq_gt] at notPast
  rw [Std.compare_eq_lt]
  exact UInt16.lt_of_lt_of_le less (UInt16.not_lt.mp notPast)

theorem hit_spec (ascending : b.entries.toList.Pairwise (fun d e => d.key < e.key)) {key : UInt16}
    {i : Nat} (found : b.locate key = .hit i) :
    ∃ front e back, b.entries.toList = front ++ e :: back ∧ front.length = i ∧ e.key = key := by
  have fits := fits_locate ascending key
  rw [found] at fits
  obtain ⟨front, e, back, parts, index, equal, -, -⟩ := Search.Hit.split fits
  exact ⟨front, e, back, parts, index, Std.compare_eq_iff_eq.mp equal⟩

theorem gap_spec (ascending : b.entries.toList.Pairwise (fun d e => d.key < e.key)) {key : UInt16}
    {i : Nat} (found : b.locate key = .gap i) :
    ∃ front back, b.entries.toList = front ++ back ∧ front.length = i ∧
      (∀ e ∈ front, e.key < key) ∧ ∀ e ∈ back, key < e.key := by
  have fits := fits_locate ascending key
  rw [found] at fits
  obtain ⟨front, back, parts, index, before, behind⟩ := Search.Gap.split fits
  exact ⟨front, back, parts, index, fun e member => Std.compare_eq_lt.mp (before e member),
    fun e member => Std.compare_eq_gt.mp (behind e member)⟩

theorem changeAt_spec {front back : List Entry} {e : Entry} {i : Nat}
    (parts : b.entries.toList = front ++ e :: back) (index : front.length = i)
    (change : Container → Container × Bool) :
    (b.changeAt i change).1.entries.toList = front ++ ⟨e.key, (change e.container).1⟩ :: back ∧
      (b.changeAt i change).2 = (change e.container).2 := by
  rw [changeAt, getElem?_of_parts parts index]
  refine ⟨?_, rfl⟩
  have taken := toList_setIfInBounds_of_parts parts index ⟨e.key, .empty⟩
  exact toList_setIfInBounds_of_parts taken index _

theorem dropEmptyAt_spec {front back : List Entry} {key : UInt16} {c : Container} {i : Nat}
    (parts : b.entries.toList = front ++ ⟨key, c⟩ :: back) (index : front.length = i) :
    (b.dropEmptyAt i).entries.toList = front ++ slot key c ++ back := by
  rw [dropEmptyAt, getElem?_of_parts parts index, Option.any_some, slot]
  split
  · rw [List.append_nil]
    exact toList_eraseIdx_of_parts parts index
  · rw [parts, List.append_assoc, List.singleton_append]

/-! Single values. -/

theorem entryOf_spec (key low : UInt16) :
    (entryOf key low).container.Canonical ∧ (entryOf key low).container.isEmpty = false ∧
      ∀ v, v ∈ (entryOf key low).container ↔ v = low := by
  have inserted := Container.insert_spec .empty low Container.wellFormed_empty
  have mem (v : UInt16) : v ∈ (entryOf key low).container ↔ v = low :=
    (inserted.mem_iff v).trans (by simp)
  exact ⟨inserted.canonical Container.canonical_empty,
    Container.isEmpty_eq_false inserted.formed low ((mem low).mpr rfl), mem⟩

theorem regular_entryOf {front back : List Entry} (key low : UInt16)
    (regular : Regular g (front ++ back)) (before : ∀ e ∈ front, e.key < key)
    (behind : ∀ e ∈ back, key < e.key) :
    Regular g (front ++ entryOf key low :: back) ∧
      ∀ k v, Holds (front ++ entryOf key low :: back) k v ↔
        (k = key ∧ v = low) ∨ Holds (front ++ back) k v := by
  obtain ⟨canonical, some, mem⟩ := entryOf_spec key low
  refine ⟨regular.left.between regular.right (Grade.good_of_canonical canonical) some
    (forall_holds (p := (· < key)) before) (forall_holds (p := (key < ·)) behind), fun k v => ?_⟩
  simp only [holds_append, holds_cons, mem]
  change _ ∨ (key = k ∧ v = low) ∨ _ ↔ _
  rw [eq_comm (a := key)]
  tauto

theorem lt_of_last (ascending : b.entries.toList.Pairwise (fun d e => d.key < e.key)) {key : UInt16}
    (last : b.entries.back?.all (fun e => e.key < key) = true) :
    ∀ e ∈ b.entries.toList, e.key < key := by
  rw [← Array.getLast?_toList] at last
  rcases List.eq_nil_or_concat' b.entries.toList with nil | ⟨front, top, parts⟩
  · simp [nil]
  · rw [parts, List.getLast?_concat, Option.all_some, decide_eq_true_eq] at last
    rw [parts, List.pairwise_append] at ascending
    rw [parts, List.forall_mem_append, List.forall_mem_singleton]
    refine ⟨fun e early => ?_, last⟩
    exact UInt16.lt_trans (ascending.2.2 e early top (List.mem_singleton_self top)) last

/-- A value is added to the container of its key, or under a new key that stands between the
others. -/
theorem insert_cases (ascending : b.entries.toList.Pairwise (fun d e => d.key < e.key))
    (v : UInt32) :
    (∃ front e back, b.entries.toList = front ++ e :: back ∧ e.key = (split v).1 ∧
      (b.insert v).1.entries.toList =
        front ++ ⟨e.key, (e.container.insert (split v).2).1⟩ :: back ∧
      (b.insert v).2 = (e.container.insert (split v).2).2) ∨
    ∃ front back, b.entries.toList = front ++ back ∧ (∀ e ∈ front, e.key < (split v).1) ∧
      (∀ e ∈ back, (split v).1 < e.key) ∧
      (b.insert v).1.entries.toList = front ++ entryOf (split v).1 (split v).2 :: back ∧
      (b.insert v).2 = true := by
  rw [insert]
  generalize split v = halves
  obtain ⟨key, low⟩ := halves
  simp only
  split
  · rename_i last
    exact Or.inr ⟨b.entries.toList, [], (List.append_nil _).symm, lt_of_last ascending last,
      by simp, Array.toList_push, rfl⟩
  · cases place : b.locate key with
    | hit i =>
      obtain ⟨front, e, back, parts, index, same⟩ := hit_spec ascending place
      obtain ⟨changed, added⟩ := changeAt_spec parts index fun c => c.insert low
      exact Or.inl ⟨front, e, back, parts, same, changed, added⟩
    | gap i =>
      obtain ⟨front, back, parts, index, before, behind⟩ := gap_spec ascending place
      exact Or.inr ⟨front, back, parts, before, behind, toList_insertIdx_of_parts parts index _, rfl⟩

theorem insert_spec (regular : Regular g b.entries.toList) (v : UInt32) :
    Regular g (b.insert v).1.entries.toList ∧
      (∀ k u, Holds (b.insert v).1.entries.toList k u ↔
        (k = (split v).1 ∧ u = (split v).2) ∨ Holds b.entries.toList k u) ∧
      ((b.insert v).2 = true ↔ ¬ b.Has v) := by
  rw [Has]
  have cases := insert_cases regular.ascending v
  generalize split v = halves at *
  obtain ⟨key, low⟩ := halves
  simp only at cases ⊢
  rcases cases with ⟨front, e, back, parts, rfl, changed, added⟩ |
    ⟨front, back, parts, before, behind, grown, added⟩
  · rw [parts] at regular
    have good := regular.right.head_good
    have inserted := Container.insert_spec e.container low good.formed
    have some := Container.isEmpty_eq_false inserted.formed low
      ((inserted.mem_iff low).mpr (Or.inl rfl))
    obtain ⟨regularNew, here, elsewhere⟩ :=
      regular.replace _ (good.step inserted.formed inserted.canonical)
    have filled := slot_of_nonempty ⟨e.key, (e.container.insert low).1⟩ some
    simp only at filled
    rw [filled, List.append_assoc, List.singleton_append] at regularNew here elsewhere
    rw [changed, added, parts]
    refine ⟨regularNew, fun k u => ?_, ?_⟩
    · by_cases same : e.key = k
      · subst same
        rw [here, regular.holds_at, inserted.mem_iff]
        simp
      · rw [elsewhere k u same]
        simp [Ne.symm same]
    · rw [regular.holds_at]
      exact inserted.added_iff
  · rw [parts] at regular ⊢
    obtain ⟨regularNew, holds⟩ := regular_entryOf key low regular before behind
    rw [grown, added]
    refine ⟨regularNew, holds, ?_⟩
    simp only [true_iff, holds_append]
    rintro (early | late)
    · exact UInt16.lt_irrefl _ (forall_holds (p := (· < key)) before key low early)
    · exact UInt16.lt_irrefl _ (forall_holds (p := (key < ·)) behind key low late)

/-- A value is taken from the container of its key, or there is no entry to take it from. -/
theorem erase_cases (ascending : b.entries.toList.Pairwise (fun d e => d.key < e.key))
    (v : UInt32) :
    (∃ front e back, b.entries.toList = front ++ e :: back ∧ e.key = (split v).1 ∧
      (b.erase v).1.entries.toList =
        front ++ slot e.key (e.container.erase (split v).2).1 ++ back ∧
      (b.erase v).2 = (e.container.erase (split v).2).2) ∨
    (∀ e ∈ b.entries.toList, e.key ≠ (split v).1) ∧ b.erase v = (b, false) := by
  rw [erase]
  generalize split v = halves
  obtain ⟨key, low⟩ := halves
  simp only
  cases place : b.locate key with
  | hit i =>
    obtain ⟨front, e, back, parts, index, same⟩ := hit_spec ascending place
    obtain ⟨changed, removed⟩ := changeAt_spec parts index fun c => c.erase low
    exact Or.inl ⟨front, e, back, parts, same, dropEmptyAt_spec changed index, removed⟩
  | gap i =>
    obtain ⟨front, back, parts, -, before, behind⟩ := gap_spec ascending place
    refine Or.inr ⟨?_, rfl⟩
    rw [parts, List.forall_mem_append]
    exact ⟨fun e early => UInt16.ne_of_lt (before e early),
      fun e late => (UInt16.ne_of_lt (behind e late)).symm⟩

theorem erase_spec (regular : Regular g b.entries.toList) (v : UInt32) :
    Regular g (b.erase v).1.entries.toList ∧
      (∀ k u, Holds (b.erase v).1.entries.toList k u ↔
        ¬ (k = (split v).1 ∧ u = (split v).2) ∧ Holds b.entries.toList k u) ∧
      ((b.erase v).2 = true ↔ b.Has v) := by
  rw [Has]
  have cases := erase_cases regular.ascending v
  generalize split v = halves at *
  obtain ⟨key, low⟩ := halves
  simp only at cases ⊢
  rcases cases with ⟨front, e, back, parts, rfl, changed, removed⟩ | ⟨other, unchanged⟩
  · rw [parts] at regular
    have good := regular.right.head_good
    have erased := Container.erase_spec e.container low good.formed
    obtain ⟨regularNew, here, elsewhere⟩ :=
      regular.replace _ (good.step erased.formed erased.canonical)
    rw [changed, removed, parts]
    refine ⟨regularNew, fun k u => ?_, ?_⟩
    · by_cases same : e.key = k
      · subst same
        rw [here, regular.holds_at, erased.mem_iff]
        simp
      · rw [elsewhere k u same]
        simp [Ne.symm same]
    · rw [regular.holds_at]
      exact erased.removed_iff
  · have absent (u : UInt16) : ¬ Holds b.entries.toList key u :=
      fun held => forall_holds (p := (· ≠ key)) other key u held rfl
    rw [unchanged]
    refine ⟨regular, fun k u => ?_, by simp [absent]⟩
    constructor
    · intro held
      refine ⟨?_, held⟩
      rintro ⟨rfl, -⟩
      exact absent u held
    · exact And.right

theorem locate_of_parts (ascending : b.entries.toList.Pairwise (fun d e => d.key < e.key))
    {front back : List Entry} {e : Entry} (parts : b.entries.toList = front ++ e :: back) :
    b.locate e.key = .hit front.length := by
  cases place : b.locate e.key with
  | hit i =>
    obtain ⟨front', e', back', parts', rfl, same⟩ := hit_spec ascending place
    have ordered := List.pairwise_iff_getElem.mp ascending
    have atFront : b.entries.toList[front.length]? = some e := by simp [parts]
    have atFront' : b.entries.toList[front'.length]? = some e' := by simp [parts']
    obtain ⟨inside, valueE⟩ := List.getElem?_eq_some_iff.mp atFront
    obtain ⟨inside', valueE'⟩ := List.getElem?_eq_some_iff.mp atFront'
    rcases Nat.lt_trichotomy front.length front'.length with less | equal | more
    · have := ordered _ _ inside inside' less
      rw [valueE, valueE', same] at this
      exact absurd this (UInt16.lt_irrefl _)
    · rw [equal]
    · have := ordered _ _ inside' inside more
      rw [valueE, valueE', same] at this
      exact absurd this (UInt16.lt_irrefl _)
  | gap i =>
    obtain ⟨front', back', parts', -, before, behind⟩ := gap_spec ascending place
    have member : e ∈ front' ++ back' := by simp [← parts', parts]
    rcases List.mem_append.mp member with early | late
    · exact absurd (before e early) (UInt16.lt_irrefl _)
    · exact absurd (behind e late) (UInt16.lt_irrefl _)

/-- The container under a key is that of the entry with the key. -/
theorem container?_eq_some_iff (ascending : b.entries.toList.Pairwise (fun d e => d.key < e.key))
    {key : UInt16} {c : Container} :
    b.container? key = some c ↔ ⟨key, c⟩ ∈ b.entries.toList := by
  constructor
  · intro found
    rw [container?] at found
    cases place : b.locate key with
    | hit i =>
      obtain ⟨front, e, back, parts, index, rfl⟩ := hit_spec ascending place
      rw [place] at found
      simp only [getElem?_of_parts parts index, Option.map_some, Option.some.injEq] at found
      subst found
      simp [parts]
    | gap i =>
      rw [place] at found
      contradiction
  · intro member
    obtain ⟨front, back, parts⟩ := List.append_of_mem member
    have place := locate_of_parts ascending parts
    simp only at place
    rw [container?, place]
    simp only [getElem?_of_parts parts rfl, Option.map_some]

theorem ext {a c : Bitmap} (same : a.entries.toList = c.entries.toList) : a = c := by
  obtain ⟨entries⟩ := a
  congr 1
  exact Array.toList_inj.mp same

theorem push_eq (regular : Regular g b.entries.toList) (v : UInt32) (c : Bitmap)
    (done : b.push v = .ok c) : c = (b.insert v).1 := by
  rw [push] at done
  rw [insert]
  generalize split v = halves at *
  obtain ⟨key, low⟩ := halves
  simp only at done ⊢
  rw [← Array.getLast?_toList] at done ⊢
  rcases List.eq_nil_or_concat' b.entries.toList with nil | ⟨front, last, parts⟩
  · rw [nil] at done ⊢
    simp only [List.getLast?_nil, Option.all_none, if_true] at done ⊢
    exact (Except.ok.inj done).symm
  · rw [parts, List.getLast?_concat] at done ⊢
    simp only [Option.all_some, decide_eq_true_eq] at done ⊢
    by_cases same : last.key = key
    · rw [if_pos same] at done
      subst same
      have formed : last.container.WellFormed := by
        rw [parts] at regular
        exact regular.right.head_good.formed
      rw [if_neg (UInt16.lt_irrefl _), locate_of_parts regular.ascending parts]
      obtain ⟨changed, -⟩ := changeAt_spec parts rfl fun c => c.insert low
      apply ext
      rw [changed]
      split at done
      · rename_i top
        have member := (Container.max?_spec formed low top).1
        rw [← Except.ok.inj done, parts, Container.insert_of_mem _ _ formed member]
      · cases pushed : last.container.push low with
        | error fault =>
          rw [pushed] at done
          contradiction
        | ok d =>
          rw [pushed] at done
          rw [← Except.ok.inj done, ← Container.eq_insert_of_push formed low pushed]
          simp [parts]
    · rw [if_neg same] at done
      split at done
      · rename_i less
        rw [if_pos less]
        exact (Except.ok.inj done).symm
      · contradiction

/-! Several values. -/

theorem extend_spec (values : List UInt32) (regular : Regular g b.entries.toList) :
    Regular g (values.foldl (fun b v => (b.insert v).1) b).entries.toList := by
  induction values generalizing b with
  | nil => exact regular
  | cons v values ih => exact ih (insert_spec regular v).1

theorem pushAll_spec (values : List UInt32) (c : Bitmap) (regular : Regular g b.entries.toList)
    (done : values.foldlM push b = .ok c) : Regular g c.entries.toList := by
  induction values generalizing b with
  | nil =>
    rw [← Except.ok.inj done]
    exact regular
  | cons v values ih =>
    rw [List.foldlM_cons] at done
    cases pushed : b.push v with
    | error fault =>
      rw [pushed] at done
      contradiction
    | ok next =>
      rw [pushed] at done
      apply ih _ done
      rw [push_eq regular v next pushed]
      exact (insert_spec regular v).1

end Roaring.Bitmap
