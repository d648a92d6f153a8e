import Roaring.Proofs.Bitmap.Algebra
import Roaring.Proofs.Bitmap.Optimize
import Roaring.Proofs.Bitmap.Ranges

/-! The bitmaps that calls can build. Each call keeps its bitmap regular; a call that fails gives no
bitmap. -/
namespace Roaring.Bitmap

inductive Call where
  | insert (v : UInt32)
  | erase (v : UInt32)
  | push (v : UInt32)
  | extend (values : Array UInt32)
  | insertRange (range : Span)
  | eraseRange (range : Span)
  | clear
  | runOptimize
  | removeRunCompression

/-- The bitmap after a call, when the call does not fail. -/
def Call.run : Call → Bitmap → Checked Bitmap
  | insert v, b => .ok (b.insert v).1
  | erase v, b => .ok (b.erase v).1
  | push v, b => b.push v
  | extend values, b => .ok (b.extend values)
  | insertRange range, b => return (← b.insertRange range).1
  | eraseRange range, b => return (← b.eraseRange range).1
  | clear, _ => .ok empty
  | runOptimize, b => return (← b.runOptimize).bitmap
  | removeRunCompression, b => return (← b.removeRunCompression).1

/-- The bitmaps that are made by the constructors, by calls, and by the algebra from others. -/
inductive Reachable : Bitmap → Prop where
  | new : Reachable empty
  | ofRange (range : Span) (b : Bitmap) (made : Bitmap.ofRange range = .ok b) : Reachable b
  | ofSortedValues (values : Array UInt32) (b : Bitmap)
      (made : Bitmap.ofSortedValues values = .ok b) : Reachable b
  | ofValues (values : Array UInt32) : Reachable (Bitmap.ofValues values)
  | call (call : Call) (b c : Bitmap) (before : Reachable b) (done : call.run b = .ok c) :
      Reachable c
  | combine (op : SetOp) (a b c : Bitmap) (first : Reachable a) (second : Reachable b)
      (done : op.onBitmaps a b = .ok c) : Reachable c
  | combineInPlace (op : SetOp) (a b c : Bitmap) (first : Reachable a) (second : Reachable b)
      (done : op.inBitmap a b = .ok c) : Reachable c

variable {g : Grade} {b c : Bitmap}

theorem regular_empty : Regular g empty.entries.toList := regular_nil

theorem regular_extend (values : Array UInt32) (regular : Regular g b.entries.toList) :
    Regular g (b.extend values).entries.toList := by
  rw [extend, ← Array.foldl_toList]
  exact extend_spec values.toList regular

/-- Adding a range that is not empty and goes past the domain fails. -/
theorem regular_insertRange (range : Span) (added : Nat) (regular : Regular g b.entries.toList)
    (done : b.insertRange range = .ok (c, added)) : Regular g c.entries.toList := by
  by_cases inside : range.stop ≤ domain
  · obtain ⟨d, count, answer, regularD⟩ := insertRange_spec regular range inside
    rw [answer] at done
    rw [← (Prod.mk.inj (Except.ok.inj done)).1]
    exact regularD
  · rw [insertRange] at done
    split at done
    · rw [← (Prod.mk.inj (Except.ok.inj done)).1]
      exact regular
    · rw [if_pos (Nat.lt_of_not_le inside)] at done
      contradiction

theorem Call.run_regular (call : Call) (regular : Regular g b.entries.toList)
    (done : call.run b = .ok c) : Regular g c.entries.toList := by
  cases call with
  | insert v =>
    rw [← Except.ok.inj done]
    exact (insert_spec regular v).1
  | erase v =>
    rw [← Except.ok.inj done]
    exact (erase_spec regular v).1
  | push v =>
    rw [push_eq regular v c done]
    exact (insert_spec regular v).1
  | extend values =>
    rw [← Except.ok.inj done]
    exact regular_extend values regular
  | insertRange range =>
    cases answer : b.insertRange range with
    | error fault =>
      rw [run, answer] at done
      contradiction
    | ok result =>
      rw [run, answer] at done
      rw [← Except.ok.inj done]
      exact regular_insertRange range result.2 regular answer
  | eraseRange range =>
    obtain ⟨d, removed, answer, regularD⟩ := eraseRange_spec regular range
    rw [run, answer] at done
    rw [← Except.ok.inj done]
    exact regularD
  | clear =>
    rw [← Except.ok.inj done]
    exact regular_empty
  | runOptimize =>
    obtain ⟨o, answer, regularO, -⟩ := runOptimize_spec regular
    rw [run, answer] at done
    rw [← Except.ok.inj done]
    exact regularO
  | removeRunCompression =>
    obtain ⟨d, answer, regularD, -⟩ := removeRunCompression_spec regular
    rw [run, answer] at done
    rw [← Except.ok.inj done]
    exact regularD

theorem regular_combine (op : SetOp) {a : Bitmap} (first : Regular g a.entries.toList)
    (second : Regular g b.entries.toList) (done : op.onBitmaps a b = .ok c) :
    Regular g c.entries.toList :=
  (of_answer (onBitmaps_spec op first second) done).1

theorem Reachable.regular (reachable : Reachable b) : Regular .canonical b.entries.toList := by
  induction reachable with
  | new => exact regular_empty
  | ofRange range b made =>
    cases answer : empty.insertRange range with
    | error fault =>
      rw [Bitmap.ofRange, answer] at made
      contradiction
    | ok result =>
      rw [Bitmap.ofRange, answer] at made
      rw [← Except.ok.inj made]
      exact regular_insertRange range result.2 regular_empty answer
  | ofSortedValues values b made =>
    rw [Bitmap.ofSortedValues, ← Array.foldlM_toList] at made
    exact pushAll_spec values.toList b regular_empty made
  | ofValues values => exact regular_extend values regular_empty
  | call call b c before done ih => exact call.run_regular ih done
  | combine op a b c first second done ihA ihB => exact regular_combine op ihA ihB done
  | combineInPlace op a b c first second done ihA ihB =>
    rw [inBitmap_eq op a b ihA.ascending] at done
    exact regular_combine op ihA ihB done

end Roaring.Bitmap
