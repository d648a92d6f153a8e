import Roaring.Proofs.Bitmap.Values
import Roaring.Proofs.Codec.Taken
import Roaring.Proofs.Validation

/-! What validation is worth on bytes of unknown origin. A bitmap that is handed out has ascending
keys and well-formed containers, and its lists and bits hold values; but a container of no runs
passes both the reader and the validation, and it is what keeps such a bitmap from being well
formed. -/
namespace Roaring.Bitmap

open Codec

/-- A storable container without values is one of no runs. -/
theorem isEmpty_of_storable {c : Container} (storable : Storable c) (formed : c.WellFormed) :
    c.isEmpty = true ↔ c = .runs .empty := by
  cases c with
  | array s =>
    have some : s.values ≠ #[] := by
      rintro none
      have long := storable.1
      simp [ArraySet.length, none] at long
    simp [Container.isEmpty, ArraySet.isEmpty, some]
  | bits b =>
    have some : b.words.count ≠ 0 := by
      rw [← show b.cardinality = b.words.count from formed]
      exact Nat.ne_of_gt (Nat.zero_lt_of_lt storable.1)
    simp [Container.isEmpty, BitSet.WellFormed.isEmpty_iff formed, some]
  | runs r =>
    rw [Container.isEmpty, RunSet.isEmpty_iff, Container.runs.injEq]
    cases r
    simp [RunSet.empty]

/-- What is handed out has ascending keys and well-formed containers, and it is well formed unless a
key stands over no runs at all; a well-formed one answers for its values. -/
theorem accepted_wellFormed_iff (bytes : List UInt8) (b : Bitmap)
    (accepted : deserializeValidated bytes = .ok (.ok b)) :
    b.entries.toList.Pairwise (fun d e => d.key < e.key) ∧
      (∀ e ∈ b.entries, e.container.WellFormed) ∧
      (b.cardinality = 0 ↔ ∀ e ∈ b.entries, e.container = .runs .empty) ∧
      (b.WellFormed ↔ ∀ e ∈ b.entries, e.container ≠ .runs .empty) ∧
      (b.WellFormed →
        (b.isEmpty = true ↔ b.cardinality = 0) ∧ b.min? = b.values.toList.head? ∧
          b.max? = b.values.toList.getLast? ∧
          ∀ c : Bitmap, c.WellFormed →
            (b.sameValues c = true ↔ ∀ v, v ∈ b.values ↔ v ∈ c.values)) := by
  obtain ⟨read, ascending, formed⟩ := (accepted_iff bytes b).mp accepted
  obtain ⟨rest, taken⟩ := of_deserializeSlice read
  have storable := (takeBitmap_taken taken).2
  have empty : ∀ e ∈ b.entries, e.container.isEmpty = true ↔ e.container = .runs .empty :=
    fun e member =>
      isEmpty_of_storable (storable e (Array.mem_toList_iff.mpr member)) (formed e member)
  refine ⟨ascending, formed, ?_, ?_, ?_⟩
  · rw [cardinality_eq_zero_iff fun e member => formed e (Array.mem_toList_iff.mp member)]
    simp only [Array.mem_toList_iff]
    exact forall₂_congr empty
  · constructor
    · intro whole e member none
      have some := (whole.containers e member).2
      exact absurd (some.symm.trans ((empty e member).mpr none)) (by decide)
    · intro some
      refine ⟨ascending, fun e member => ⟨formed e member, ?_⟩⟩
      exact Bool.eq_false_iff.mpr fun none => some e member ((empty e member).mp none)
  · intro whole
    have regular := wellFormed_iff.mp whole
    refine ⟨isEmpty_iff regular, min?_eq regular, max?_eq regular, ?_⟩
    exact fun c other => sameValues_iff regular (wellFormed_iff.mp other)

/-- A list next to a container of runs, in the form that flags the second one. -/
theorem accepted_wellFormed_iff_two_keys :
    let bytes : List UInt8 :=
      [59, 48, 1, 0, 2, 3, 0, 1, 0, 255, 255, 255, 255, 1, 0, 7, 0, 1, 0, 0, 0, 255, 255]
    let b : Bitmap := ⟨#[⟨3, .array ⟨#[1, 7]⟩⟩, ⟨65535, .runs ⟨#[⟨0, 65535⟩]⟩⟩]⟩
    deserializeValidated bytes = .ok (.ok b) ∧ b.WellFormed ∧
      (b.isEmpty = true ↔ b.cardinality = 0) ∧ b.min? = b.values.toList.head? ∧
      b.max? = b.values.toList.getLast? ∧ b.sameValues b = true := by
  intro bytes b
  have read : deserializeSlice bytes = .ok b := by
    unfold bytes b
    rfl
  have accepted := (accepted_iff bytes b).mpr ⟨read, by decide, by decide⟩
  obtain ⟨-, -, -, whole, answers⟩ := accepted_wellFormed_iff bytes b accepted
  have formed := whole.mpr (by decide)
  obtain ⟨empty, least, greatest, equal⟩ := answers formed
  exact ⟨accepted, formed, empty, least, greatest, (equal b formed).mpr fun _ => Iff.rfl⟩

/-- The count of runs may be zero. -/
example :
    let b : Bitmap := ⟨#[⟨0, .runs ⟨#[]⟩⟩]⟩
    deserializeValidated [59, 48, 0, 0, 1, 0, 0, 0, 0, 0, 0] = .ok (.ok b) ∧
      b.isEmpty = false ∧ b.cardinality = 0 := by
  exact ⟨(accepted_iff _ _).mpr ⟨by rfl, by decide, by decide⟩, rfl, rfl⟩

end Roaring.Bitmap
