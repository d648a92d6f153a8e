import Roaring.Codec.Error
import Roaring.Codec.Size

/-! The serialized form, all numbers lowest byte first:
  without runs: 4 bytes 12346, 4 bytes container count;
  with runs: 4 bytes 12347 and in their high half the count minus one, then one bit for each
  container, set for runs;
  then for each container 2 bytes key and 2 bytes cardinality minus one;
  then, except with runs in fewer than 4 containers, 4 bytes position of each payload;
  then the payloads: 2 bytes for each value of a list; 8 bytes for each word of bits; 2 bytes run
  count, then 2 bytes start and 2 bytes length for each run. -/
namespace Roaring

namespace Codec

/-- The lowest `width` bytes of a number. -/
def bytesOf : (width : Nat) → (n : Nat) → List UInt8
  | 0, _ => []
  | width + 1, n => n.toUInt8 :: bytesOf width (n / 256)

def numberOf : List UInt8 → Nat
  | [] => 0
  | b :: rest => b.toNat + 256 * numberOf rest

theorem length_bytesOf (width n : Nat) : (bytesOf width n).length = width := by
  induction width generalizing n with
  | zero => rfl
  | succ width ih => simp [bytesOf, ih]

def plainCookie : Nat := 12346

/-- Announces a bitmap with runs, in the low half of the first four bytes. -/
def runCookie : Nat := 12347

/-- The bytes of a payload, and the number of bytes reported for them. -/
structure Payload where
  bytes : List UInt8
  reported : Nat

def valueBytes (values : Array UInt16) : List UInt8 :=
  values.toList.flatMap (fun v => bytesOf 2 v.toNat)

def wordBytes (ws : Words) : List UInt8 := ws.toList.flatMap (fun w => bytesOf 8 w.toNat)

def runBytes (r : RunSet) : List UInt8 :=
  bytesOf 2 r.countRuns ++
    r.runs.toList.flatMap (fun r => bytesOf 2 r.start.toNat ++ bytesOf 2 r.length.toNat)

def flagByte (flags : Array Bool) (index : Nat) : UInt8 :=
  (List.range 8).foldl
    (fun byte k => if flags.getD (8 * index + k) false then byte ||| (1 <<< k.toUInt8) else byte) 0

/-- The bits that flag the containers with runs, padded with clear bits to whole bytes. -/
def flagBytes (flags : Array Bool) : List UInt8 :=
  (List.range ((flags.size + 7) / 8)).map (flagByte flags)

def offsetsFrom : (position : Nat) → List Entry → List Nat
  | _, [] => []
  | position, e :: rest => position :: offsetsFrom (position + e.container.payloadSize) rest

structure Sink where
  written : Array UInt8
  room : Nat

namespace Sink

def ofRoom (room : Nat) : Sink := ⟨#[], room⟩

def write (s : Sink) (bytes : List UInt8) : Except StreamFailure Sink :=
  if bytes.length ≤ s.room then .ok ⟨s.written ++ bytes, s.room - bytes.length⟩
  else .error .noSpace

end Sink

end Codec

open Codec

def Container.payload : Container → Payload
  | .runs r => ⟨runBytes r, r.serializedSize⟩
  | .array s =>
    if s.length ≤ ArraySet.maxLength then ⟨valueBytes s.values, s.serializedSize⟩
    else ⟨wordBytes (BitSet.ofSortedValues s.values).words, BitSet.serializedSize⟩
  | .bits b =>
    if ArraySet.maxLength < b.cardinality then ⟨wordBytes b.words, BitSet.serializedSize⟩
    else ⟨valueBytes b.values, ArraySet.serializedSizeFor b.cardinality⟩

namespace Bitmap

def preamble (b : Bitmap) : List UInt8 :=
  if b.hasRuns then
    bytesOf 4 (runCookie + 65536 * (b.containerCount - 1)) ++
      flagBytes (b.entries.map (fun e => e.container.kind == .runs))
  else bytesOf 4 plainCookie ++ bytesOf 4 b.containerCount

/-- The key and the cardinality minus one of a container. -/
def descriptor (e : Entry) : List UInt8 :=
  bytesOf 2 e.key.toNat ++ bytesOf 2 (e.container.cardinality + 65535)

def offsets (b : Bitmap) : List UInt8 :=
  if writesOffsets b.containerCount b.hasRuns then
    (offsetsFrom (headerSize b.containerCount b.hasRuns) b.entries.toList).flatMap (bytesOf 4)
  else []

def header (b : Bitmap) : List UInt8 :=
  b.preamble ++ b.entries.toList.flatMap descriptor ++ b.offsets

def serialize (b : Bitmap) : List UInt8 :=
  b.header ++ b.entries.toList.flatMap (fun e => e.container.payload.bytes)

/-- Writes payloads one after the other and adds up the sizes reported for them. -/
def writePayloads : List Entry → Sink → Nat → Except StreamFailure (Sink × Nat)
  | [], sink, reported => .ok (sink, reported)
  | e :: rest, sink, reported => do
    let payload := e.container.payload
    let sink ← sink.write payload.bytes
    writePayloads rest sink (reported + payload.reported)

/-- Writes the serialized form part by part and reports its size. -/
def serializeInto (b : Bitmap) (sink : Sink) : Except StreamFailure (Sink × Nat) := do
  let sink ← sink.write b.preamble
  let sink ← sink.write (b.entries.toList.flatMap descriptor)
  let sink ← sink.write b.offsets
  writePayloads b.entries.toList sink (headerSize b.containerCount b.hasRuns)

end Bitmap

end Roaring
