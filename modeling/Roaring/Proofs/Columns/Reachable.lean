import Roaring.Proofs.Bitmap.Reachable
import Roaring.Proofs.Validation
import Roaring.Proofs.Columns.Optimize
import Roaring.Proofs.Columns.Ranges

/-! All columns that calls can leave are canonical. Each call keeps its columns in step with a bitmap
that calls can build. A call that is refused leaves them as it found them. -/
namespace Roaring

namespace Columns

/-- The columns after a call, whether it has answered or failed. -/
def left {α : Type} : EStateM.Result Fault Columns α → Columns
  | .ok _ s => s
  | .error _ s => s

end Columns

open Columns

def Bitmap.Call.after : Call → Columns → Columns
  | insert v, s => left ((Columns.insert v).run s)
  | erase v, s => left ((Columns.erase v).run s)
  | push v, s => left ((Columns.push v).run s)
  | extend values, s => left ((Columns.extend values).run s)
  | insertRange range, s => left ((Columns.insertRange range).run s)
  | eraseRange range, s => left ((Columns.eraseRange range).run s)
  | clear, s => left (Columns.clear.run s)
  | runOptimize, s => left (Columns.runOptimize.run s)
  | removeRunCompression, s => left (Columns.removeRunCompression.run s)

namespace Columns

/-- The columns that are made by the constructors, by calls, and by the algebra from others. A
constructor or an operation beside its operands makes none when it fails. -/
inductive Reachable : Columns → Prop where
  | new : Reachable empty
  | ofRange (range : Span) (added : Nat) (s : Columns)
      (made : (insertRange range).run empty = .ok added s) : Reachable s
  | ofSortedValues (values : Array UInt32) (s : Columns)
      (made : (pushAll values).run empty = .ok () s) : Reachable s
  | ofValues (values : Array UInt32) (s : Columns)
      (made : (extend values).run empty = .ok () s) : Reachable s
  | call (call : Bitmap.Call) (s : Columns) (before : Reachable s) : Reachable (call.after s)
  | combine (op : SetOp) (s t u : Columns) (first : Reachable s) (second : Reachable t)
      (done : op.onColumns s t = .ok u) : Reachable u
  | combineInPlace (op : SetOp) (s t : Columns) (first : Reachable s) (second : Reachable t) :
      Reachable (left ((op.inColumns t).run s))

/-- Columns in step with a bitmap that calls can build. -/
def InStep (s : Columns) : Prop := ∃ b, Bitmap.Reachable b ∧ s = ofEntries b.entries

variable {a b : Bitmap} {s : Columns}

theorem formed_of_reachable (reachable : Bitmap.Reachable b) : b.WellFormed :=
  (Bitmap.canonical_iff.mpr reachable.regular).toWellFormed

theorem ofEntries_empty : ofEntries Bitmap.empty.entries = empty := ofEntries_nil

theorem inStep_empty : InStep empty := ⟨Bitmap.empty, .new, ofEntries_empty.symm⟩

/-- A call on two columns in step leaves the columns of what the call on the bitmap gives, and where that
fails it leaves them as they were. -/
theorem after_ofEntries (call : Bitmap.Call) (formed : b.WellFormed) :
    call.after (ofEntries b.entries) =
      match call.run b with
      | .ok c => ofEntries c.entries
      | .error _ => ofEntries b.entries := by
  have regular := Bitmap.wellFormed_iff.mp formed
  cases call with
  | insert v =>
    rw [Bitmap.Call.after, insert_ofEntries]
    rfl
  | erase v =>
    rw [Bitmap.Call.after, erase_ofEntries]
    rfl
  | push v =>
    rw [Bitmap.Call.after, push_ofEntries, Bitmap.Call.run]
    cases b.push v <;> rfl
  | extend values =>
    rw [Bitmap.Call.after, extend_ofEntries]
    rfl
  | insertRange range =>
    rw [Bitmap.Call.after, insertRange_ofEntries formed, Bitmap.Call.run]
    cases b.insertRange range <;> rfl
  | eraseRange range =>
    obtain ⟨c, removed, done, walked⟩ := eraseRange_ofEntries formed range
    rw [Bitmap.Call.after, walked, Bitmap.Call.run, done]
    rfl
  | clear => exact ofEntries_empty.symm
  | runOptimize =>
    obtain ⟨o, done, -⟩ := Bitmap.runOptimize_spec regular
    rw [Bitmap.Call.after, runOptimize_ofEntries done, Bitmap.Call.run, done]
    rfl
  | removeRunCompression =>
    obtain ⟨c, done, -⟩ := Bitmap.removeRunCompression_spec regular
    rw [Bitmap.Call.after, removeRunCompression_ofEntries done, Bitmap.Call.run, done]
    rfl

theorem inStep_after (call : Bitmap.Call) (reachable : Bitmap.Reachable b) :
    InStep (call.after (ofEntries b.entries)) := by
  rw [after_ofEntries call (formed_of_reachable reachable)]
  cases done : call.run b with
  | ok c => exact ⟨c, .call call b c reachable done, rfl⟩
  | error fault => exact ⟨b, reachable, rfl⟩

theorem inStep_combine (op : SetOp) (first : Bitmap.Reachable a) (second : Bitmap.Reachable b)
    (done : op.onColumns (ofEntries a.entries) (ofEntries b.entries) = .ok s) : InStep s := by
  rw [onColumns_ofEntries] at done
  cases combined : op.onBitmaps a b with
  | error fault =>
    rw [combined] at done
    contradiction
  | ok c =>
    rw [combined] at done
    exact ⟨c, .combine op a b c first second combined, (Except.ok.inj done).symm⟩

theorem inStep_combineInPlace (op : SetOp) (first : Bitmap.Reachable a)
    (second : Bitmap.Reachable b) :
    InStep (left ((op.inColumns (ofEntries b.entries)).run (ofEntries a.entries))) := by
  obtain ⟨c, combined, -⟩ := Bitmap.onBitmaps_spec op first.regular second.regular
  have follows := inColumns_follows op a b
  rw [← Bitmap.inBitmap_eq op a b first.regular.ascending] at combined
  rw [combined] at follows
  have done : (op.inColumns (ofEntries b.entries)).run (ofEntries a.entries) = _ := follows
  rw [done]
  exact ⟨c, .combineInPlace op a b c first second combined, rfl⟩

theorem Reachable.inStep (reachable : Reachable s) : InStep s := by
  induction reachable with
  | new => exact inStep_empty
  | ofRange range added s made =>
    rw [← ofEntries_empty, insertRange_ofEntries (formed_of_reachable .new)] at made
    cases done : Bitmap.empty.insertRange range with
    | error fault =>
      rw [done] at made
      contradiction
    | ok result =>
      rw [done] at made
      cases made
      exact ⟨result.1, .ofRange range _ (by rw [Bitmap.ofRange, done]; rfl), rfl⟩
  | ofSortedValues values s made =>
    have follows := pushAll_follows .empty values
    rw [ofEntries_empty, made] at follows
    cases done : values.foldlM Bitmap.push .empty with
    | error fault =>
      rw [done] at follows
      obtain ⟨left, failed⟩ := follows
      contradiction
    | ok c =>
      rw [done] at follows
      cases (follows : EStateM.Result.ok () s = _)
      exact ⟨c, .ofSortedValues values c done, rfl⟩
  | ofValues values s made =>
    rw [← ofEntries_empty, extend_ofEntries] at made
    cases made
    exact ⟨_, .ofValues values, rfl⟩
  | call call s before ih =>
    obtain ⟨b, reachable, rfl⟩ := ih
    exact inStep_after call reachable
  | combine op s t u _ _ done first second =>
    obtain ⟨a, first, rfl⟩ := first
    obtain ⟨b, second, rfl⟩ := second
    exact inStep_combine op first second done
  | combineInPlace op s t _ _ first second =>
    obtain ⟨a, first, rfl⟩ := first
    obtain ⟨b, second, rfl⟩ := second
    exact inStep_combineInPlace op first second

theorem validate_ofEntries (b : Bitmap) : (ofEntries b.entries).validate = b.validate := by
  rw [validate, Bitmap.validate, Validation.IndexView.ofBitmap, size_keys, ofEntries, Array.map_map]
  rfl

/-- The representation invariant holds of all columns that calls can leave, and validation finds no
fault with them. -/
theorem reachable_canonical (s : Columns) (reachable : Reachable s) :
    s.Canonical ∧ s.validate = .ok .ok := by
  obtain ⟨b, built, rfl⟩ := reachable.inStep
  have canonical := Bitmap.canonical_iff.mpr built.regular
  refine ⟨(canonical_ofEntries b).mpr canonical, ?_⟩
  rw [validate_ofEntries]
  exact Validation.validate_of_wellFormed canonical.toWellFormed

/-- A value is added under a second key and taken away again; then a range comes in from elsewhere, and
a value that may not be appended. -/
theorem reachable_canonical_refused :
    let values := Bitmap.Call.after (.extend #[65535, 7, 65534]) empty
    let back := Bitmap.Call.after (.erase 65536) (Bitmap.Call.after (.insert 65536) values)
    let range := Bitmap.Call.after (.insertRange ⟨131070, 262145⟩) empty
    let s := Bitmap.Call.after (.push 9) (left ((SetOp.union.inColumns range).run back))
    Reachable s ∧ s.Canonical ∧ s.validate = .ok .ok := by
  intro values back range s
  have valuesBuilt : Reachable values := .call _ _ .new
  have backBuilt : Reachable back := .call _ _ (.call _ _ valuesBuilt)
  have rangeBuilt : Reachable range := .call _ _ .new
  have built : Reachable s := .call _ _ (.combineInPlace .union _ _ backBuilt rangeBuilt)
  exact ⟨built, reachable_canonical s built⟩

end Columns

end Roaring
