import Roaring.Validation.Check
import Roaring.Proofs.Bitmap.Entries
import Roaring.Proofs.Validation.Violations

/-! What the validation of a live bitmap finds. Its parts are all there, so that its view is valid
exactly when the keys ascend and every container is well formed. Whether a container is empty is not
looked at, also not when it decides what is handed out of bytes. -/
namespace Roaring

namespace Validation

/-- A cardinality that equals a number of bits is the same number seen with a sign. -/
theorem toInt_eq_count (w : UInt64) (n : Nat) (small : n ≤ 65536) :
    w.toInt64.toInt = n ↔ w.toNat = n := by
  change w.toBitVec.toInt = n ↔ w.toBitVec.toNat = n
  have bound := w.toBitVec.isLt
  rw [BitVec.toInt_eq_toNat_cond]
  split
  · omega
  · omega

theorem setBits_toArray (ws : Words) : setBits ws.toArray = ws.count := by
  rw [← foldl_popCount_eq, Words.foldl_popCount]

theorem valid_ofContainer (c : Container) : (ContainerView.ofContainer c).Valid ↔ c.WellFormed := by
  cases c with
  | array s =>
    have whole : s.values.toList.take s.length = s.values.toList := List.take_length
    simp only [ContainerView.ofContainer, ContainerView.Valid, Option.some.injEq, exists_eq_left',
      Int.toNat_natCast, whole]
    constructor
    · rintro ⟨-, short, -, ascending⟩
      exact ⟨ascending, Int.ofNat_le.mp short⟩
    · intro formed
      exact ⟨by omega, Int.ofNat_le.mpr formed.short, Int.le_refl _, formed.ascending⟩
  | bits b =>
    simp only [ContainerView.ofContainer, ContainerView.Valid, Option.some.injEq, exists_eq_left',
      setBits_toArray]
    rw [and_iff_right b.words.size_toArray]
    exact toInt_eq_count _ _ b.words.count_le
  | runs r =>
    have whole : r.runs.toList.take r.countRuns = r.runs.toList := List.take_length
    simp only [ContainerView.ofContainer, ContainerView.Valid, Option.some.injEq, exists_eq_left',
      Int.toNat_natCast, whole]
    constructor
    · rintro ⟨-, -, canonical⟩
      exact canonical
    · intro formed
      exact ⟨by omega, Int.le_refl _, formed⟩

theorem valid_ofBitmap (b : Bitmap) :
    (IndexView.ofBitmap b).Valid ↔ b.entries.toList.Pairwise (fun d e => d.key < e.key) ∧
      ∀ e ∈ b.entries, e.container.WellFormed := by
  have keys : b.keys.toList.take b.containerCount = b.entries.toList.map Entry.key := by
    simp [Bitmap.keys, Bitmap.containerCount]
  have slots : (b.entries.map fun e => some (ContainerView.ofContainer e.container)).toList.take
      b.containerCount = b.entries.toList.map fun e => some (.ofContainer e.container) := by
    simp [Bitmap.containerCount]
  have room : (b.containerCount : Int) ≤ min b.keys.size
      (b.entries.map fun e => some (ContainerView.ofContainer e.container)).size := by
    simp [Bitmap.keys, Bitmap.containerCount]
  simp only [IndexView.ofBitmap, IndexView.Valid, Option.some.injEq, exists_eq_left',
    exists_and_left, Int.toNat_natCast, keys, slots, List.pairwise_map, List.forall_mem_map,
    valid_ofContainer, Array.mem_toList_iff]
  rw [and_iff_right (by omega), and_iff_right room]

/-- Validation of a live bitmap always answers. It succeeds exactly when the keys ascend and the
containers are well formed. -/
theorem validate_spec (b : Bitmap) :
    ∃ v, b.validate = .ok v ∧
      (v.isValid = true ↔ b.entries.toList.Pairwise (fun d e => d.key < e.key) ∧
        ∀ e ∈ b.entries, e.container.WellFormed) ∧ (v.isValid = true → v = .ok) := by
  have success := isValid_first_violations (some (IndexView.ofBitmap b))
  refine ⟨first (violations (some (.ofBitmap b))), check_eq _, ?_, ?_⟩
  · rw [success, violations_eq_nil, ← valid_ofBitmap]
    simp
  · intro valid
    rw [success.mp valid]
    rfl

theorem validate_of_wellFormed {b : Bitmap} (formed : b.WellFormed) : b.validate = .ok .ok := by
  obtain ⟨v, done, valid, success⟩ := validate_spec b
  rw [done, success (valid.mpr ⟨formed.ascending, fun e member => (formed.containers e member).1⟩)]

end Validation

namespace Bitmap

/-- A bitmap is handed out when it can be read and its keys and containers are valid. -/
theorem accepted_iff (bytes : List UInt8) (b : Bitmap) :
    deserializeValidated bytes = .ok (.ok b) ↔
      deserializeSlice bytes = .ok b ∧ b.entries.toList.Pairwise (fun d e => d.key < e.key) ∧
        ∀ e ∈ b.entries, e.container.WellFormed := by
  rw [deserializeValidated]
  cases deserializeSlice bytes with
  | error e => exact iff_of_false (nomatch Except.ok.inj ·) (nomatch ·.1)
  | ok c =>
    obtain ⟨v, verdict, valid, -⟩ := Validation.validate_spec c
    simp only
    rw [verdict, Except.ok.injEq]
    change (if v.isValid = true then Except.ok (Except.ok c) else Except.ok _) = _ ↔ _
    split
    · rename_i success
      constructor
      · intro accepted
        have same : c = b := Except.ok.inj (Except.ok.inj accepted)
        exact ⟨same, same ▸ valid.mp success⟩
      · rintro ⟨rfl, -⟩
        rfl
    · rename_i failure
      constructor
      · exact fun accepted => nomatch Except.ok.inj accepted
      · rintro ⟨rfl, sound⟩
        exact absurd (valid.mpr sound) failure

end Bitmap

end Roaring
