import Mathlib.Algebra.GroupWithZero.Nat
import Roaring.Codec.Writer

/-! Writing into a place for a limited number of bytes. Parts that are written one behind the other
fit exactly where they fit as one, so writing a bitmap part by part is one write of its serialized
form. -/
namespace Roaring

namespace Codec

namespace Sink

theorem write_fits {s : Sink} {bytes : List UInt8} (fits : bytes.length ≤ s.room) :
    s.write bytes = .ok ⟨s.written ++ bytes, s.room - bytes.length⟩ := if_pos fits

theorem write_full {s : Sink} {bytes : List UInt8} (full : s.room < bytes.length) :
    s.write bytes = .error .noSpace := if_neg (Nat.not_le.mpr full)

theorem write_nil (s : Sink) : s.write [] = .ok s := by
  rw [write_fits (Nat.zero_le _), Array.appendList_nil]
  rfl

theorem write_append (s : Sink) (front back : List UInt8) :
    s.write (front ++ back) = s.write front >>= fun t => t.write back := by
  rcases Nat.lt_or_ge s.room front.length with full | fits
  · have whole : s.room < (front ++ back).length := by
      rw [List.length_append]
      omega
    rw [write_full whole, write_full full]
    rfl
  · rw [write_fits fits]
    change _ = Sink.write ⟨s.written ++ front, s.room - front.length⟩ back
    have joined : s.written ++ (front ++ back) = s.written ++ front ++ back :=
      Array.ext' (by simp)
    rw [write, write, List.length_append, joined, Nat.sub_sub]
    -- the second part fits behind the first one as soon as both fit together
    have both : front.length + back.length ≤ s.room ↔ back.length ≤ s.room - front.length := by
      omega
    simp only [both]

end Sink

/-- What a sink holds after some bytes went into it. -/
structure Took (before : Sink) (bytes : List UInt8) (after : Sink) : Prop where
  written : after.written.toList = before.written.toList ++ bytes
  room : after.room + bytes.length = before.room

theorem Sink.write_took (s : Sink) (bytes : List UInt8) (fits : bytes.length ≤ s.room) :
    ∃ t, s.write bytes = .ok t ∧ Took s bytes t := by
  refine ⟨_, write_fits fits, by simp, ?_⟩
  exact Nat.sub_add_cancel fits

end Codec

namespace Bitmap

open Codec

def reportedSize (entries : List Entry) : Nat :=
  (entries.map fun e => e.container.payload.reported).sum

theorem writePayloads_eq (entries : List Entry) (sink : Sink) (reported : Nat) :
    writePayloads entries sink reported =
      (fun t => (t, reported + reportedSize entries)) <$>
        sink.write (entries.flatMap fun e => e.container.payload.bytes) := by
  induction entries generalizing sink reported with
  | nil =>
    rw [List.flatMap_nil, Sink.write_nil]
    rfl
  | cons e entries ih =>
    rw [writePayloads, List.flatMap_cons, Sink.write_append]
    cases sink.write e.container.payload.bytes with
    | error failure => rfl
    | ok t =>
      change writePayloads entries t _ = _ <$> t.write _
      rw [ih, reportedSize, reportedSize, List.map_cons, List.sum_cons]
      simp only [Nat.add_assoc]

/-- Part by part or at once, the same bytes are written or refused. -/
theorem serializeInto_eq (b : Bitmap) (sink : Sink) :
    b.serializeInto sink =
      (fun t => (t, headerSize b.containerCount b.hasRuns + reportedSize b.entries.toList)) <$>
        sink.write b.serialize := by
  simp only [serializeInto, serialize, header, Sink.write_append, writePayloads_eq, bind_assoc,
    map_bind]

/-- With room for it, the serialized form is written, and nothing else. -/
theorem serializeInto_took (b : Bitmap) (sink : Sink) (fits : b.serialize.length ≤ sink.room) :
    ∃ t reported, b.serializeInto sink = .ok (t, reported) ∧ Took sink b.serialize t := by
  obtain ⟨t, done, took⟩ := sink.write_took b.serialize fits
  rw [serializeInto_eq, done]
  exact ⟨t, _, rfl, took⟩

end Bitmap

end Roaring
