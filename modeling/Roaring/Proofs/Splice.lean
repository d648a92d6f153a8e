import Mathlib.Data.List.InsertIdx
import Roaring.Splice
import Roaring.Proofs.Search

/-! Arrays seen as a front and a back around an index, which is how the changes at an index and the
answers of a bisection are put to use. -/
namespace Roaring

variable {α : Type} {xs : Array α} {front back : List α} {i : Nat}

theorem insertIdx_append (front back : List α) (a : α) :
    (front ++ back).insertIdx front.length a = front ++ a :: back := by
  induction front with
  | nil => rfl
  | cons b front ih => simp [ih]

theorem toList_insertIdx_of_parts (parts : xs.toList = front ++ back) (index : front.length = i)
    (a : α) : (xs.insertIdxIfInBounds i a).toList = front ++ a :: back := by
  obtain ⟨list⟩ := xs
  obtain rfl : list = front ++ back := parts
  subst index
  rw [List.insertIdxIfInBounds_toArray, insertIdx_append]

theorem toList_eraseIdx_of_parts {a : α} (parts : xs.toList = front ++ a :: back)
    (index : front.length = i) : (xs.eraseIdxIfInBounds i).toList = front ++ back := by
  subst index
  rw [Array.toList_eraseIdxIfInBounds, parts, List.eraseIdx_append_of_length_le (Nat.le_refl _)]
  simp

theorem toList_setIfInBounds_of_parts {a : α} (parts : xs.toList = front ++ a :: back)
    (index : front.length = i) (b : α) :
    (xs.setIfInBounds i b).toList = front ++ b :: back := by
  subst index
  rw [Array.toList_setIfInBounds, parts, List.set_append_right _ _ (Nat.le_refl _)]
  simp

theorem getElem?_of_parts {a : α} (parts : xs.toList = front ++ a :: back)
    (index : front.length = i) : xs[i]? = some a := by
  subst index
  rw [← Array.getElem?_toList, parts]
  simp

theorem getElem?_swapIfInBounds_of_ne {k : Nat} (first : k ≠ i) {j : Nat} (second : k ≠ j) :
    (xs.swapIfInBounds i j)[k]? = xs[k]? := by
  rw [Array.swapIfInBounds_def]
  split
  · split
    · rw [Array.getElem?_swap, if_neg second.symm, if_neg first.symm]
    · rfl
  · rfl

theorem setIfInBounds_self {a : α} (here : xs[i]? = some a) : xs.setIfInBounds i a = xs := by
  apply Array.ext_getElem?
  intro j
  rw [Array.getElem?_setIfInBounds]
  split
  · rename_i same
    subst same
    rw [if_pos (Array.getElem?_eq_some_iff.mp here).1, here]
  · rfl

theorem push_pop {a : α} (last : xs.back? = some a) (b : α) :
    xs.pop.push b = xs.setIfInBounds (xs.size - 1) b := by
  obtain ⟨ys, rfl⟩ := Array.back?_eq_some_iff.mp last
  rw [Array.pop_push, Array.size_push, Nat.add_sub_cancel]
  apply Array.ext_getElem?
  intro j
  rw [Array.getElem?_push, Array.getElem?_setIfInBounds, Array.getElem?_push, Array.size_push]
  grind

/-- An element that is swapped with the first one of a stretch before it passes the stretch. -/
theorem toList_swap_of_parts {passed : List α} {a : α}
    (parts : xs.toList = front ++ passed ++ a :: back) (index : front.length = i) :
    ∃ behind, behind.length = passed.length ∧
      (xs.swapIfInBounds i (i + passed.length)).toList = front ++ a :: behind ++ back := by
  subst index
  have size : xs.size = front.length + passed.length + (back.length + 1) := by
    rw [← Array.length_toList, parts, List.length_append, List.length_append, List.length_cons]
  have here := getElem?_of_parts parts List.length_append
  rw [Array.getElem?_eq_getElem (by omega), Option.some.injEq] at here
  rw [Array.swapIfInBounds_def, dif_pos (by omega), dif_pos (by omega), Array.toList_swap, here]
  cases passed with
  | nil =>
    refine ⟨[], rfl, ?_⟩
    simp only [List.length_nil, Nat.add_zero] at here ⊢
    rw [here, parts]
    simp
  | cons b passed =>
    have first : xs.toList = front ++ b :: (passed ++ a :: back) := by simp [parts]
    have there := getElem?_of_parts first rfl
    rw [Array.getElem?_eq_getElem (by omega), Option.some.injEq] at there
    refine ⟨passed ++ [b], List.length_append, ?_⟩
    rw [there, first, List.set_append_right _ _ (Nat.le_refl _), Nat.sub_self, List.set_cons_zero,
      List.set_append_right _ _ (Nat.le_add_right _ _), Nat.add_sub_cancel_left, List.length_cons,
      List.set_cons_succ, List.set_append_right _ _ (Nat.le_refl _), Nat.sub_self,
      List.set_cons_zero]
    simp

theorem toList_splice {middle : List α} {hi : Nat} (parts : xs.toList = front ++ middle ++ back)
    (index : front.length = i) (next : i + middle.length = hi) (ys : Array α) :
    (splice xs i hi ys).toList = front ++ ys.toList ++ back := by
  subst index next
  have size : xs.size = front.length + middle.length + back.length := by
    rw [← Array.length_toList, parts, List.length_append, List.length_append]
  simp [splice, parts, size]

/-- A stretch may be taken out before others are put in its place. -/
theorem splice_splice {middle : List α} {hi : Nat} (parts : xs.toList = front ++ middle ++ back)
    (index : front.length = i) (next : i + middle.length = hi) (ys : Array α) :
    splice (splice xs i hi #[]) i i ys = splice xs i hi ys := by
  apply Array.toList_inj.mp
  have drained := toList_splice parts index next #[]
  rw [toList_splice drained index (Nat.add_zero i), toList_splice parts index next]

theorem toList_extract_of_parts {middle : List α} {hi : Nat}
    (parts : xs.toList = front ++ middle ++ back) (index : front.length = i)
    (next : i + middle.length = hi) : (xs.extract i hi).toList = middle := by
  subst index next
  rw [Array.toList_extract, parts, List.append_assoc, List.extract_eq_take_drop,
    List.drop_left, Nat.add_sub_cancel_left, List.take_left]

theorem ends_of_window {middle : List α} {hi : Nat} (parts : xs.toList = front ++ middle ++ back)
    (index : front.length = i) (next : i + middle.length = hi) :
    (if i < hi then xs[i]? else none) = middle.head? ∧
      (if i < hi then xs[hi - 1]? else none) = middle.getLast? := by
  subst index next
  rw [List.head?_eq_getElem?, List.getLast?_eq_getElem?]
  split
  · have last : front.length + middle.length - 1 = front.length + (middle.length - 1) := by omega
    rw [← Array.getElem?_toList, ← Array.getElem?_toList, parts, last, List.append_assoc,
      List.getElem?_append_right (Nat.le_refl _), List.getElem?_append_right (Nat.le_add_right _ _),
      Nat.sub_self, Nat.add_sub_cancel_left, List.getElem?_append_left (by omega),
      List.getElem?_append_left (by omega)]
    exact ⟨rfl, rfl⟩
  · have none : middle = [] := List.eq_nil_of_length_eq_zero (by omega)
    simp [none]

/-! Elements that are all replaced at once. -/

section
variable {β : Type} (f : α → β)

theorem map_eraseIdx (xs : Array α) (i : Nat) :
    (xs.eraseIdxIfInBounds i).map f = (xs.map f).eraseIdxIfInBounds i := by
  apply Array.toList_inj.mp
  rw [Array.toList_map, Array.toList_eraseIdxIfInBounds, Array.toList_eraseIdxIfInBounds,
    Array.toList_map, List.eraseIdx_map]

theorem map_insertIdx (xs : Array α) (i : Nat) (a : α) :
    (xs.insertIdxIfInBounds i a).map f = (xs.map f).insertIdxIfInBounds i (f a) := by
  obtain ⟨list⟩ := xs
  rw [List.insertIdxIfInBounds_toArray, List.map_toArray, List.map_toArray,
    List.insertIdxIfInBounds_toArray, List.map_insertIdx]

theorem map_swapIfInBounds (xs : Array α) (i j : Nat) :
    (xs.swapIfInBounds i j).map f = (xs.map f).swapIfInBounds i j := by
  simp only [Array.swapIfInBounds_def, Array.size_map]
  split
  · split
    · simp only [Array.swap_def, Array.map_set, Array.getElem_map]
    · rfl
  · rfl

theorem map_splice (xs : Array α) (lo hi : Nat) (mid : Array α) :
    (splice xs lo hi mid).map f = splice (xs.map f) lo hi (mid.map f) := by
  simp only [splice, Array.map_append, Array.map_extract, Array.size_map]

end

namespace Search

theorem Parts.split {p : α → Bool} {list : List α} (found : Parts p list i) :
    ∃ front back, list = front ++ back ∧ front.length = i ∧ (∀ a ∈ front, p a = true) ∧
      ∀ a ∈ back, p a = false :=
  ⟨list.take i, list.drop i, (List.take_append_drop i list).symm,
    List.length_take_of_le found.inside, found.passes, found.fails⟩

theorem Gap.split {order : α → Ordering} {list : List α} (found : Gap order list i) :
    ∃ front back, list = front ++ back ∧ front.length = i ∧ (∀ a ∈ front, order a = .lt) ∧
      ∀ a ∈ back, order a = .gt :=
  ⟨list.take i, list.drop i, (List.take_append_drop i list).symm,
    List.length_take_of_le found.inside, found.before, found.behind⟩

theorem Hit.split {order : α → Ordering} {list : List α} (found : Hit order list i) :
    ∃ front a back, list = front ++ a :: back ∧ front.length = i ∧ order a = .eq ∧
      (∀ a ∈ front, order a = .lt) ∧ ∀ a ∈ back, order a = .gt := by
  obtain ⟨a, here, equal⟩ := found.here
  obtain ⟨inside, rfl⟩ := List.getElem?_eq_some_iff.mp here
  refine ⟨list.take i, list[i], list.drop (i + 1), ?_, ?_, equal, found.before, found.behind⟩
  · rw [← List.drop_eq_getElem_cons inside, List.take_append_drop]
  · exact List.length_take_of_le (Nat.le_of_lt inside)

/-- Two bisections, of which the first stops no later than the second, part a list in three. -/
theorem Parts.window {p q : α → Bool} {list : List α} {lo hi : Nat} (low : Parts p list lo)
    (high : Parts q list hi) (weaker : ∀ a ∈ list, p a = true → q a = true) :
    ∃ front middle back, list = front ++ middle ++ back ∧ front.length = lo ∧
      lo + middle.length = hi ∧ (∀ a ∈ front, p a = true) ∧
      (∀ a ∈ middle, p a = false ∧ q a = true) ∧ ∀ a ∈ back, q a = false := by
  have insideLow := low.inside
  have insideHigh := high.inside
  have ordered : lo ≤ hi := by
    by_contra crossed
    have bound : hi < list.length := by omega
    have early : list[hi] ∈ list.take lo :=
      List.mem_take_iff_getElem.mpr ⟨hi, by omega, rfl⟩
    have late : list[hi] ∈ list.drop hi := by
      rw [List.drop_eq_getElem_cons bound]
      exact List.mem_cons_self
    have passes := weaker _ (List.getElem_mem bound) (low.passes _ early)
    rw [high.fails _ late] at passes
    contradiction
  refine ⟨list.take lo, (list.drop lo).take (hi - lo), list.drop hi, ?_, ?_, ?_, low.passes, ?_,
    high.fails⟩
  · have rest : list.drop hi = (list.drop lo).drop (hi - lo) := by
      rw [List.drop_drop]
      congr 1
      omega
    rw [rest, List.append_assoc, List.take_append_drop, List.take_append_drop]
  · exact List.length_take_of_le insideLow
  · rw [List.length_take_of_le (by rw [List.length_drop]; omega)]
    omega
  · intro a member
    refine ⟨low.fails a (List.mem_of_mem_take member), high.passes a ?_⟩
    rw [show hi = lo + (hi - lo) by omega, List.take_add]
    exact List.mem_append_right _ member

end Search

end Roaring
