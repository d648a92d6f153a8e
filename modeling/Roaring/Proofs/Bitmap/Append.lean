import Mathlib.Data.List.Chain
import Roaring.Proofs.Bitmap.History

/-! Appending is inserting for values that do not go down. It looks at the greatest value only: a smaller
one is refused, the same one changes nothing, and a greater one goes where inserting puts it. -/
namespace Roaring.Bitmap

variable {g : Grade} {b : Bitmap}

/-! The greatest value. -/

theorem max?_eq_some_iff (regular : Regular g b.entries.toList) (m : UInt32) :
    b.max? = some m ↔ b.Has m ∧ ∀ u, b.Has u → u ≤ m := by
  have formed : ∀ e ∈ b.entries.toList, e.container.WellFormed :=
    fun e member => (regular.good e member).formed
  have sorted := values_ascending regular
  rw [max?_eq regular]
  simp only [← mem_values formed, ← Array.mem_toList_iff]
  constructor
  · intro last
    obtain ⟨before, parts⟩ := List.getLast?_eq_some_iff.mp last
    rw [parts] at sorted ⊢
    refine ⟨by simp, fun u member => ?_⟩
    rcases List.mem_append.mp member with earlier | here
    · exact UInt32.le_of_lt ((List.pairwise_append.mp sorted).2.2 u earlier m (by simp))
    · rw [List.mem_singleton.mp here]
      exact UInt32.le_refl m
  · rintro ⟨member, greatest⟩
    rcases List.eq_nil_or_concat' b.values.toList with none | ⟨before, last, parts⟩
    · simp [none] at member
    · rw [parts] at sorted member greatest ⊢
      rw [List.getLast?_concat]
      rcases List.mem_append.mp member with earlier | here
      · have below := (List.pairwise_append.mp sorted).2.2 m earlier last (by simp)
        exact absurd below (UInt32.not_lt.mpr (greatest last (by simp)))
      · rw [List.mem_singleton.mp here]

theorem exists_max?_of_has (regular : Regular g b.entries.toList) {u : UInt32} (has : b.Has u) :
    ∃ m, b.max? = some m ∧ u ≤ m := by
  cases top : b.max? with
  | none =>
    have formed : ∀ e ∈ b.entries.toList, e.container.WellFormed :=
      fun e member => (regular.good e member).formed
    rw [max?_eq regular, List.getLast?_eq_none_iff] at top
    rw [← mem_values formed, ← Array.mem_toList_iff, top] at has
    contradiction
  | some m => exact ⟨m, rfl, ((max?_eq_some_iff regular m).mp top).2 u has⟩

theorem exists_has_above_iff (regular : Regular g b.entries.toList) (v : UInt32) :
    (∃ u, b.Has u ∧ v < u) ↔ ∃ m, b.max? = some m ∧ v < m := by
  constructor
  · intro some
    obtain ⟨u, has, above⟩ := some
    obtain ⟨m, top, most⟩ := exists_max?_of_has regular has
    exact ⟨m, top, UInt32.lt_of_lt_of_le above most⟩
  · intro some
    obtain ⟨m, top, above⟩ := some
    exact ⟨m, ((max?_eq_some_iff regular m).mp top).1, above⟩

/-- A value that is not below any other is the greatest once it is inserted. -/
theorem max?_insert (regular : Regular g b.entries.toList) {v : UInt32}
    (last : ∀ u, b.Has u → u ≤ v) : (b.insert v).1.max? = some v := by
  obtain ⟨inserted, holds, -⟩ := insert_spec regular v
  have has (u : UInt32) : (b.insert v).1.Has u ↔ u = v ∨ b.Has u := by
    rw [Has, holds, ← eq_iff_split, Has]
  rw [max?_eq_some_iff inserted, has]
  refine ⟨Or.inl rfl, fun u either => ?_⟩
  rcases (has u).mp either with same | held
  · rw [same]
    exact UInt32.le_refl v
  · exact last u held

/-! One value. -/

/-- How a value below the greatest is refused: by the container that they share, or by its key. -/
def refusal (v m : UInt32) : Fault :=
  if (split m).1 = (split v).1 then .pushBelowLast (split v).2 (split m).2 else .pushBelowMaximum v

theorem push_below {v m : UInt32} (top : b.max? = some m) (below : v < m) :
    b.push v = .error (refusal v m) := by
  rw [max?] at top
  obtain ⟨last, back, top⟩ := Option.bind_eq_some_iff.mp top
  obtain ⟨low, topLow, joined⟩ := Option.bind_eq_some_iff.mp top
  obtain rfl := Option.some.inj joined
  rw [lt_iff_split, split_join] at below
  rw [push_of_last last back, refusal, split_join]
  rcases below with smaller | ⟨same, less⟩
  · rw [if_neg (UInt16.ne_of_lt smaller).symm, if_neg (UInt16.lt_asymm smaller),
      if_neg (UInt16.ne_of_lt smaller).symm]
  · have notTop : last.container.max? ≠ some (split v).2 := by
      rw [topLow, ne_eq, Option.some.injEq]
      exact (UInt16.ne_of_lt less).symm
    rw [if_pos same.symm, if_neg notTop, Container.push_error _ _ low topLow less, if_pos same.symm]
    rfl

theorem push_not_below (regular : Regular g b.entries.toList) {v : UInt32}
    (last : ∀ m, b.max? = some m → m ≤ v) : b.push v = .ok (b.insert v).1 := by
  rcases push_cases regular v with ⟨done, -⟩ | ⟨-, above⟩
  · exact done
  · obtain ⟨m, top, below⟩ := (exists_has_above_iff regular v).mp above
    exact absurd below (UInt32.not_lt.mpr (last m top))

/-! Several values. -/

/-- From a greatest value on, appending goes through exactly when no step goes down. -/
theorem pushAll_cases (values : List UInt32) {m : UInt32} (regular : Regular g b.entries.toList)
    (top : b.max? = some m) :
    ((m :: values).IsChain (· ≤ ·) ∧
      values.foldlM push b = .ok (values.foldl (fun b v => (b.insert v).1) b)) ∨
    ¬ (m :: values).IsChain (· ≤ ·) ∧ ∃ fault, values.foldlM push b = .error fault := by
  induction values generalizing b m with
  | nil => exact Or.inl ⟨.singleton m, rfl⟩
  | cons v values ih =>
    rw [List.foldlM_cons, List.isChain_cons_cons]
    by_cases below : v < m
    · refine Or.inr ⟨fun chain => UInt32.not_lt.mpr chain.1 below, refusal v m, ?_⟩
      rw [push_below top below]
      rfl
    · have above := UInt32.not_lt.mp below
      have pushed : b.push v = .ok (b.insert v).1 := push_not_below regular fun n same => by
        obtain rfl := Option.some.inj (top.symm.trans same)
        exact above
      rw [pushed]
      have last (u : UInt32) (has : b.Has u) : u ≤ v :=
        UInt32.le_trans (((max?_eq_some_iff regular m).mp top).2 u has) above
      rcases ih (insert_spec regular v).1 (max?_insert regular last) with
        ⟨chain, done⟩ | ⟨broken, failed⟩
      · exact Or.inl ⟨⟨above, chain⟩, done⟩
      · exact Or.inr ⟨fun chain => broken chain.2, failed⟩

theorem ofSortedValues_cases (values : Array UInt32) :
    (values.toList.IsChain (· ≤ ·) ∧ ofSortedValues values = .ok (ofValues values)) ∨
      ¬ values.toList.IsChain (· ≤ ·) ∧ ∃ fault, ofSortedValues values = .error fault := by
  rw [ofSortedValues, ofValues, extend, ← Array.foldlM_toList, ← Array.foldl_toList]
  cases values.toList with
  | nil => exact Or.inl ⟨.nil, rfl⟩
  | cons v values =>
    have nothing : Regular .canonical empty.entries.toList := regular_nil
    have pushed : empty.push v = .ok (empty.insert v).1 :=
      push_not_below nothing fun m none => by contradiction
    rw [List.foldlM_cons, pushed]
    exact pushAll_cases values (insert_spec nothing v).1
      (max?_insert nothing fun u has => absurd has holds_nil.mp)

theorem isChain_iff (values : Array UInt32) : values.toList.IsChain (· ≤ ·) ↔
    ∀ i u v, values[i]? = some u → values[i + 1]? = some v → u ≤ v := by
  rw [List.isChain_iff_getElem]
  constructor
  · intro chain i u v here next
    obtain ⟨-, rfl⟩ := Array.getElem?_eq_some_iff.mp here
    obtain ⟨inside, rfl⟩ := Array.getElem?_eq_some_iff.mp next
    exact chain i inside
  · intro steps i inside
    have inside' : i + 1 < values.size := inside
    exact steps i _ _ (Array.getElem?_eq_getElem (by omega)) (Array.getElem?_eq_getElem inside')

/-- Appending a value that is not below the greatest gives the bitmap that inserting it gives, whatever
the encodings, and every other value is refused. So a list of values is taken exactly when no value is
smaller than the one before it, and then gives the bitmap that its values build. -/
theorem push_eq_insert :
    (∀ values : Array UInt32,
      ((∃ fault, ofSortedValues values = .error fault) ↔
        ∃ i u v, values[i]? = some u ∧ values[i + 1]? = some v ∧ v < u) ∧
      ((∀ i u v, values[i]? = some u → values[i + 1]? = some v → u ≤ v) →
        ofSortedValues values = .ok (ofValues values))) ∧
    ∀ b : Bitmap, b.WellFormed → ∀ v,
      (∀ m, b.max? = some m → v < m → b.push v = .error (refusal v m)) ∧
      ((∀ m, b.max? = some m → m ≤ v) → b.push v = .ok (b.insert v).1) ∧
      ((∃ fault, b.push v = .error fault) ↔ ∃ m, b.max? = some m ∧ v < m) := by
  constructor
  · intro values
    have chain := isChain_iff values
    have broken : ¬ values.toList.IsChain (· ≤ ·) ↔
        ∃ i u v, values[i]? = some u ∧ values[i + 1]? = some v ∧ v < u := by
      simp only [chain, not_forall, exists_prop, UInt32.not_le]
    rcases ofSortedValues_cases values with ⟨up, done⟩ | ⟨down, failed⟩
    · have noFault : ¬ ∃ fault, ofSortedValues values = .error fault := by simp [done]
      exact ⟨iff_of_false noFault fun some => broken.mpr some up, fun _ => done⟩
    · exact ⟨iff_of_true failed (broken.mp down), fun steps => absurd (chain.mpr steps) down⟩
  · intro b formed v
    have regular := wellFormed_iff.mp formed
    have taken := push_not_below (v := v) regular
    refine ⟨fun m => push_below, taken, ?_⟩
    constructor
    · intro refused
      obtain ⟨fault, failed⟩ := refused
      by_contra nothing
      rw [taken fun m top => UInt32.not_lt.mp fun below => nothing ⟨m, top, below⟩] at failed
      contradiction
    · intro some
      obtain ⟨m, top, below⟩ := some
      exact ⟨refusal v m, push_below top below⟩

/-- After a run that ends its key: the same value, the first of the next key, and two refusals. -/
theorem push_eq_insert_at_borders :
    let b : Bitmap := ⟨#[⟨0, .array ⟨#[7]⟩⟩, ⟨3, .runs ⟨#[⟨65530, 5⟩]⟩⟩]⟩
    b.WellFormed ∧ b.max? = some 262143 ∧ b.push 262143 = .ok (b.insert 262143).1 ∧
      b.push 262144 = .ok (b.insert 262144).1 ∧
      b.push 262142 = .error (.pushBelowLast 65534 65535) ∧
      b.push 8 = .error (.pushBelowMaximum 8) ∧
      ofSortedValues #[5, 5, 65536] = .ok (ofValues #[5, 5, 65536]) ∧
      ∃ fault, ofSortedValues #[5, 65536, 65535] = .error fault := by
  intro b
  have formed : b.WellFormed := by decide
  have top : b.max? = some 262143 := by decide
  have one := push_eq_insert.2 b formed
  have atMost (v : UInt32) (above : 262143 ≤ v) (m : UInt32) (found : b.max? = some m) : m ≤ v := by
    obtain rfl := Option.some.inj (top.symm.trans found)
    exact above
  refine ⟨formed, top, (one _).2.1 (atMost _ (by decide)), (one _).2.1 (atMost _ (by decide)),
    (one _).1 _ top (by decide), (one _).1 _ top (by decide), ?_, ?_⟩
  · have sorted : [5, 5, 65536].IsChain (fun u v : UInt32 => u ≤ v) := by decide
    exact (push_eq_insert.1 _).2 ((isChain_iff #[5, 5, 65536]).mp sorted)
  · exact (push_eq_insert.1 _).1.mpr ⟨1, 65536, 65535, rfl, rfl, by decide⟩

end Roaring.Bitmap
