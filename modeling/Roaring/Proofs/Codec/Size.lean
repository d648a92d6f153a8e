import Roaring.Proofs.Bitmap.Entries
import Roaring.Proofs.Codec.RoundTrip
import Roaring.Proofs.Codec.Sink

/-! The size of the serialized form. It is computed ahead of writing, reported by writing and seen in
the bytes, each on its own account; that the three agree makes the computed size the exact room that
writing needs. -/
namespace Roaring

open Codec

theorem Container.payloadSize_sparse {b : BitSet} (sparse : b.cardinality ≤ ArraySet.maxLength) :
    (Container.bits b).payloadSize = ArraySet.serializedSizeFor b.cardinality := if_pos sparse

/-- What is written for a container, and the size reported for it, follow its cardinality and not
its encoding: dense bits are written as words, sparse ones as their values. -/
theorem Container.WellFormed.payload_size {c : Container} (formed : c.WellFormed) :
    c.payload.bytes.length = c.payloadSize ∧ c.payload.reported = c.payloadSize := by
  have size := formed.size_values
  cases c with
  | runs r => exact ⟨length_runBytes r, rfl⟩
  | array s =>
    have short : s.length ≤ ArraySet.maxLength := ArraySet.WellFormed.short formed
    have computed : (Container.array s).payloadSize = s.serializedSize := if_pos short
    rw [computed, Container.payload, if_pos short]
    exact ⟨length_valueBytes s.values, rfl⟩
  | bits b =>
    rw [Container.payload]
    rcases Nat.lt_or_ge ArraySet.maxLength b.cardinality with dense | sparse
    · have computed : (Container.bits b).payloadSize = BitSet.serializedSize :=
        if_neg (Nat.not_le.mpr dense)
      rw [computed, if_pos dense]
      exact ⟨length_wordBytes b.words, rfl⟩
    · have count : b.values.size = b.cardinality := size
      rw [payloadSize_sparse sparse, if_neg (Nat.not_lt.mpr sparse)]
      exact ⟨(length_valueBytes b.values).trans (congrArg _ count), rfl⟩

namespace Bitmap

variable {b : Bitmap}

theorem length_header (few : b.containerCount ≤ 65536) :
    b.header.length = headerSize b.containerCount b.hasRuns := by
  have entries : b.entries.toList.length = b.containerCount := Array.length_toList
  have descriptors : (b.entries.toList.flatMap descriptor).length = 4 * b.containerCount := by
    rw [length_flatMap_const descriptor 4 (by simp [descriptor, length_bytesOf]), entries]
  have positions : b.offsets.length =
      4 * if writesOffsets b.containerCount b.hasRuns then b.containerCount else 0 := by
    rw [offsets]
    split
    · rw [length_flatMap_const _ 4 (length_bytesOf 4), length_offsetsFrom, entries]
    · rfl
  rw [header, List.length_append, List.length_append, preamble_eq,
    (b.announced few).length_preamble, isSome_runFlags, descriptors, positions, headerSize_eq]

theorem serializedSize_eq_sum (b : Bitmap) : b.serializedSize =
    headerSize b.containerCount b.hasRuns +
      (b.entries.toList.map fun e => e.container.payloadSize).sum := by
  rw [serializedSize, ← Array.foldl_toList, List.sum_eq_foldl, List.foldl_map]

theorem length_payloads {entries : List Entry} (formed : ∀ e ∈ entries, e.container.WellFormed) :
    (entries.flatMap fun e => e.container.payload.bytes).length =
      (entries.map fun e => e.container.payloadSize).sum := by
  rw [List.length_flatMap]
  exact congrArg List.sum (List.map_congr_left fun e member => (formed e member).payload_size.1)

namespace WellFormed

theorem length_serialize (formed : b.WellFormed) : b.serialize.length = b.serializedSize := by
  rw [serialize, List.length_append, length_header formed.containerCount_le,
    length_payloads fun e member => (formed.containers e (Array.mem_toList_iff.mp member)).1,
    serializedSize_eq_sum]

theorem reported_size (formed : b.WellFormed) :
    headerSize b.containerCount b.hasRuns + reportedSize b.entries.toList = b.serializedSize := by
  have reported : (b.entries.toList.map fun e => e.container.payload.reported) =
      b.entries.toList.map fun e => e.container.payloadSize := by
    refine List.map_congr_left fun e member => ?_
    exact (formed.containers e (Array.mem_toList_iff.mp member)).1.payload_size.2
  rw [reportedSize, reported, serializedSize_eq_sum]

end WellFormed

/-- The size computed ahead is the number of bytes of the serialized form. With exactly that room or
more, writing succeeds, reports that number and uses up that room; with less it fails for lack of
space. -/
theorem serializeInto_exact (b : Bitmap) (formed : b.WellFormed) (n : Nat) :
    b.serialize.length = b.serializedSize ∧
      (b.serializedSize ≤ n → ∃ t, b.serializeInto (.ofRoom n) = .ok (t, b.serializedSize) ∧
        t.written.toList = b.serialize ∧ t.room = n - b.serializedSize) ∧
      (n < b.serializedSize → b.serializeInto (.ofRoom n) = .error .noSpace) := by
  have length := formed.length_serialize
  have writing := b.serializeInto_eq (.ofRoom n)
  rw [formed.reported_size] at writing
  refine ⟨length, fun enough => ?_, fun short => ?_⟩
  · have fits : b.serialize.length ≤ (Sink.ofRoom n).room := length ▸ enough
    rw [writing, Sink.write_fits fits, length]
    exact ⟨_, rfl, by simp [Sink.ofRoom], rfl⟩
  · have full : (Sink.ofRoom n).room < b.serialize.length := length ▸ short
    rw [writing, Sink.write_full full]
    rfl

/-- Two values kept as bits are written as a list; the room is larger by two, and smaller by one. -/
theorem serializeInto_exact_sparse :
    let b : Bitmap := ⟨#[⟨7, .bits (.ofSortedValues #[5, 64])⟩]⟩
    b.WellFormed ∧ b.serializedSize = 20 ∧ b.serialize.length = 20 ∧
      (∃ t, b.serializeInto (.ofRoom 22) = .ok (t, 20) ∧
        t.written.toList = b.serialize ∧ t.room = 2) ∧
      b.serializeInto (.ofRoom 19) = .error .noSpace := by
  intro b
  have sparse : (Container.bits (.ofSortedValues #[5, 64])).WellFormed :=
    BitSet.wellFormed_ofWords _
  have held : (5 : UInt16) ∈ Container.bits (.ofSortedValues #[5, 64]) :=
    (BitSet.mem_ofSortedValues _ _).mpr (by simp)
  have count : (BitSet.ofSortedValues #[5, 64]).cardinality = 2 :=
    Container.cardinality_ofSortedValues _ (by decide)
  have formed : b.WellFormed := wellFormed_iff.mpr
    (regular_singleton _ sparse (Container.isEmpty_eq_false sparse 5 held))
  have plain : b.hasRuns = false := by simp [b, hasRuns, Container.kind]
  have size : b.serializedSize = 20 := by
    rw [serializedSize_eq_sum, plain]
    simp only [b, List.map_cons, List.map_nil]
    rw [Container.payloadSize_sparse (by rw [count]; decide), count]
    rfl
  obtain ⟨length, enough, -⟩ := serializeInto_exact b formed 22
  obtain ⟨-, -, short⟩ := serializeInto_exact b formed 19
  rw [size] at length enough short
  exact ⟨formed, size, length, enough (by decide), short (by decide)⟩

end Bitmap

end Roaring
