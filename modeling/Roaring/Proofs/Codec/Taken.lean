import Mathlib.Data.List.Forall2
import Roaring.Proofs.Codec.Form

/-! What is read from bytes of unknown origin, where it can be read at all: entries as the header
describes them, with containers that the format can tell apart. -/
namespace Roaring.Codec

/-- What a payload, described at an index, is made into. -/
structure Filled (flags : Option (Array UInt8)) (descriptor : (UInt16 × Nat) × Nat)
    (e : Entry) : Prop where
  key : e.key = descriptor.1.1
  storable : Storable e.container
  cardinality : isFlagged flags descriptor.2 = false → e.container.cardinality = descriptor.1.2

/-- Each entry is made as described, in the order of the descriptions. -/
theorem takePayloads_taken {flags : Option (Array UInt8)} {descriptors : List (UInt16 × Nat)}
    (declared : ∀ d ∈ descriptors, Declared d) {i : Nat} {out entries : Array Entry}
    {unread left : List UInt8}
    (taken : takePayloads flags descriptors i out unread = .ok (entries, left)) :
    ∃ added, entries.toList = out.toList ++ added ∧
      List.Forall₂ (Filled flags) (descriptors.zipIdx i) added := by
  have payloads : Takes Refused _ _ := takes_payloads flags descriptors declared i out
  obtain ⟨front, -, slots, rfl, parts, -, fits⟩ := payloads.sound taken
  refine ⟨_, parts, ?_⟩
  rw [List.zipIdx_map, ← List.zipIdx_map_fst i slots, List.map_map, List.zipIdx_map_fst,
    List.forall₂_map_left_iff, List.forall₂_map_right_iff, List.forall₂_same]
  exact fun s member => ⟨rfl, (fits s member).storable, (fits s member).counted⟩

/-- Whatever the bytes, a bitmap that is read from them is one that the format can tell apart. -/
theorem takeBitmap_taken {b : Bitmap} {unread left : List UInt8}
    (taken : takeBitmap unread = .ok (b, left)) :
    b.containerCount ≤ 65536 ∧ ∀ e ∈ b.entries.toList, Storable e.container := by
  obtain ⟨front, -, f, -, rfl⟩ := takes_bitmap.sound taken
  constructor
  · rw [Form.bitmap, Bitmap.containerCount, List.size_toArray, List.length_map]
    exact f.announced.few
  · refine List.forall_mem_map.mpr fun s member => ?_
    obtain ⟨i, inside, rfl⟩ := List.mem_iff_getElem.mp member
    exact (f.fits _ (List.mk_mem_zipIdx_iff_getElem?.mpr (List.getElem?_eq_getElem inside))).storable

theorem of_deserializeSlice {bytes : List UInt8} {b : Bitmap}
    (read : Bitmap.deserializeSlice bytes = .ok b) : ∃ rest, takeBitmap bytes = .ok (b, rest) := by
  rw [Bitmap.deserializeSlice, Bitmap.deserialize] at read
  cases taken : takeBitmap bytes with
  | error e =>
    rw [taken] at read
    contradiction
  | ok p =>
    rw [taken] at read
    have same : p.1 = b := Except.ok.inj read
    exact ⟨p.2, by rw [← same]⟩

end Roaring.Codec
