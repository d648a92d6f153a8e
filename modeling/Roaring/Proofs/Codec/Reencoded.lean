import Roaring.Proofs.Codec.RoundTrip
import Roaring.Proofs.Codec.Sink
import Roaring.Proofs.Codec.Taken

/-! Writing what was read. The reader takes keys, values, cardinalities and runs as they are, and all
that it can make has one written form, so nothing is lost on the way back: not even what no
validation would let pass. -/
namespace Roaring.Bitmap

open Codec

def recode (bytes : List UInt8) : Except Error (List UInt8) :=
  return (← deserialize bytes).1.serialize

theorem recode_of_read {bytes rest : List UInt8} {b : Bitmap}
    (read : deserialize bytes = .ok (b, rest)) : recode bytes = .ok b.serialize := by
  rw [recode, read]
  rfl

/-- A bitmap that was read, valid or not, is written wherever it fits and read back as it was, with
nothing left over. What comes out of writing it is not changed by reading and writing again. -/
theorem deserialize_serialize_of_read (bytes rest : List UInt8) (b : Bitmap)
    (read : deserialize bytes = .ok (b, rest)) :
    (∀ sink : Sink, b.serialize.length ≤ sink.room →
        ∃ t reported, b.serializeInto sink = .ok (t, reported) ∧
          t.written.toList = sink.written.toList ++ b.serialize) ∧
      deserialize b.serialize = .ok (b, []) ∧
      recode bytes = .ok b.serialize ∧ recode b.serialize = .ok b.serialize := by
  obtain ⟨few, storable⟩ := takeBitmap_taken read
  have again : deserialize b.serialize = .ok (b, []) := by
    have written := takeBitmap_written b few storable []
    rwa [List.append_nil] at written
  refine ⟨fun sink fits => ?_, again, recode_of_read read, recode_of_read again⟩
  obtain ⟨t, reported, done, took⟩ := b.serializeInto_took sink fits
  exact ⟨t, reported, done, took.written⟩

/-- Keys and values out of order, a run that leaves the domain and overlaps the one before it, and
a byte behind the end. -/
theorem deserialize_serialize_of_read_disordered :
    let bytes : List UInt8 := [59, 48, 1, 0, 2, 5, 0, 1, 0, 3, 0, 0, 0, 7, 0, 1, 0, 2, 0, 10, 0, 5, 0,
      9, 0, 255, 255, 77]
    let b : Bitmap := ⟨#[⟨5, .array ⟨#[7, 1]⟩⟩, ⟨3, .runs ⟨#[⟨10, 5⟩, ⟨9, 65535⟩]⟩⟩]⟩
    deserialize bytes = .ok (b, [77]) ∧
      (∃ t reported, b.serializeInto (.ofRoom 27) = .ok (t, reported) ∧
        t.written.toList = b.serialize) ∧
      deserialize b.serialize = .ok (b, []) ∧
      recode bytes = .ok b.serialize ∧ recode b.serialize = .ok b.serialize := by
  intro bytes b
  have read : deserialize bytes = .ok (b, [77]) := by
    unfold bytes b
    rfl
  obtain ⟨write, again⟩ := deserialize_serialize_of_read bytes [77] b read
  have fits : b.serialize.length ≤ (Sink.ofRoom 27).room := by decide +kernel
  exact ⟨read, write (.ofRoom 27) fits, again⟩

end Roaring.Bitmap
