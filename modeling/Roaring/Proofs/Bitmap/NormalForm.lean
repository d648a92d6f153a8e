import Roaring.Proofs.Bitmap.History
import Roaring.Proofs.Bitmap.Optimize

/-! Removing the run compression leaves a normal form: the bitmap that inserting the values one by one
builds, however they were encoded before. -/
namespace Roaring.Bitmap

variable {a b c : Bitmap} {S : Finset UInt32}

theorem Built.unique (first : a.Built S) (second : b.Built S) : a = b :=
  first.depicts.unique second.depicts

/-- The values may come in any order, and more than once. -/
theorem Built.eq_ofValues (built : b.Built S) (values : Array UInt32)
    (listed : ∀ v, v ∈ values ↔ v ∈ S) : b = ofValues values := by
  have inserted := built_empty.extend values
  have same : ∅ ∪ values.toList.toFinset = S := by
    ext v
    rw [Finset.empty_union, List.mem_toFinset, Array.mem_toList_iff, listed]
  rw [same] at inserted
  exact built.unique inserted

theorem hasRuns_iff : b.hasRuns = true ↔ ∃ e ∈ b.entries, e.container.kind = .runs := by
  rw [hasRuns, Array.any_eq_true']
  simp only [beq_iff_eq]

/-- Both constructions end in a bitmap without runs that holds the same set. -/
theorem Canonical.removeRunCompression_built (canonical : b.Canonical) :
    ∃ c, b.removeRunCompression = .ok (c, b.hasRuns) ∧ c.Built b.valueSet := by
  have regular := canonical_iff.mp canonical
  obtain ⟨c, done, same⟩ := removeRunCompression_reencoded (g := .canonical) canonical.dense
  obtain ⟨regularC, holds⟩ := regular_of_reencoded regular (same.imp fun _ _ => And.left)
  refine ⟨c, done, regularC, fun e member => ?_, fun v => ?_⟩
  · obtain ⟨d, -, -, plain⟩ := exists_of_forall₂ same.flip e member
    exact plain
  · rw [canonical.mem_valueSet]
    exact holds _ _

/-- Removing the run compression of a canonical bitmap tells whether there were runs, and leaves the
bitmap that its values build. So canonical bitmaps that compare as equal are the same afterwards, and are
written as the same bytes. -/
theorem removeRunCompression_normal :
    (∀ b : Bitmap, b.Canonical → ∃ c changed, b.removeRunCompression = .ok (c, changed) ∧
      (changed = true ↔ ∃ e ∈ b.entries, e.container.kind = .runs) ∧
      (∀ e ∈ c.entries, e.container.kind ≠ .runs) ∧ c = ofValues b.values ∧
      ∀ values : Array UInt32, (∀ v, v ∈ values ↔ v ∈ b.values) → c = ofValues values) ∧
    ∀ a b : Bitmap, a.Canonical → b.Canonical → a.sameValues b = true →
      ∃ c d changedC changedD, a.removeRunCompression = .ok (c, changedC) ∧
        b.removeRunCompression = .ok (d, changedD) ∧ c = d ∧ c.serialize = d.serialize := by
  refine ⟨fun b canonical => ?_, fun a b canonicalA canonicalB same => ?_⟩
  · obtain ⟨c, done, built⟩ := canonical.removeRunCompression_built
    have ofListed (values : Array UInt32) (listed : ∀ v, v ∈ values ↔ v ∈ b.values) :
        c = ofValues values := by
      apply built.eq_ofValues
      intro v
      rw [listed, valueSet, List.mem_toFinset, Array.mem_toList_iff]
    refine ⟨c, b.hasRuns, done, hasRuns_iff, fun e member => ?_, ofListed _ fun _ => Iff.rfl,
      ofListed⟩
    exact built.plain e (Array.mem_toList_iff.mpr member)
  · obtain ⟨c, doneC, builtC⟩ := canonicalA.removeRunCompression_built
    obtain ⟨d, doneD, builtD⟩ := canonicalB.removeRunCompression_built
    have members := (canonicalA.sameValues_iff_members canonicalB.toWellFormed).mp same
    have sets : a.valueSet = b.valueSet := by
      ext v
      rw [canonicalA.mem_valueSet, canonicalB.mem_valueSet, ← canonicalA.mem_members,
        ← canonicalB.mem_members, members]
    rw [← sets] at builtD
    have equal := builtC.unique builtD
    exact ⟨c, d, _, _, doneC, doneD, equal, congrArg serialize equal⟩

/-- Three values as a list and as a run, under a run that is too long for a list. -/
theorem removeRunCompression_normal_mixed :
    let long : Entry := ⟨9, .runs ⟨#[⟨100, 4999⟩]⟩⟩
    let a : Bitmap := ⟨#[⟨3, .array ⟨#[5, 6, 7]⟩⟩, long]⟩
    let b : Bitmap := ⟨#[⟨3, .runs ⟨#[⟨5, 2⟩]⟩⟩, long]⟩
    a.Canonical ∧ b.Canonical ∧ a.sameValues b = true ∧
      (∃ c, a.removeRunCompression = .ok (c, true) ∧ c = ofValues a.values) ∧
      ∃ c d changedC changedD, a.removeRunCompression = .ok (c, changedC) ∧
        b.removeRunCompression = .ok (d, changedD) ∧ c = d ∧ c.serialize = d.serialize := by
  intro long a b
  have canonicalA : a.Canonical := by decide
  have canonicalB : b.Canonical := by decide
  have equal : a.sameValues b = true := by cbv
  obtain ⟨normal, alike⟩ := removeRunCompression_normal
  obtain ⟨c, changed, done, runs, -, built, -⟩ := normal a canonicalA
  have changed : changed = true := runs.mpr ⟨long, by simp [a], rfl⟩
  rw [changed] at done
  exact ⟨canonicalA, canonicalB, equal, ⟨c, done, built⟩, alike a b canonicalA canonicalB equal⟩

end Roaring.Bitmap
