import Mathlib.Data.List.GetD
import Mathlib.Data.Nat.Bitwise
import Roaring.Proofs.Codec.Size

/-! Where the parts of the serialized form stand. The positions in the header are computed before any
payload is written; that a reader finds the payloads there takes the size of the header and of every
payload before to be what is written. -/
namespace Roaring

namespace Codec

/-! Parts of bytes. -/

/-- The bytes have a part from a position on. -/
def StandsAt (bytes : List UInt8) (position : Nat) (part : List UInt8) : Prop :=
  ∃ front back, bytes = front ++ part ++ back ∧ front.length = position

def numberAt (bytes : List UInt8) (position width : Nat) : Nat :=
  numberOf ((bytes.drop position).take width)

/-- Bit `i` of the bytes from a position on, those of each byte from the lowest. -/
def bitAt (bytes : List UInt8) (position i : Nat) : Bool :=
  (bytes.getD (position + i / 8) 0).toNat.testBit (i % 8)

variable {bytes part piece : List UInt8} {position : Nat} {α : Type}

theorem standsAt_append (front part back : List UInt8) :
    StandsAt (front ++ part ++ back) front.length part := ⟨front, back, rfl, rfl⟩

namespace StandsAt

theorem drop_eq (stands : StandsAt bytes position part) :
    bytes.drop position = part ++ bytes.drop (position + part.length) := by
  obtain ⟨front, back, rfl, rfl⟩ := stands
  rw [← List.length_append, List.drop_left, List.append_assoc, List.drop_left]

theorem take_drop_eq (stands : StandsAt bytes position part) :
    (bytes.drop position).take part.length = part := by
  rw [stands.drop_eq, List.take_left]

/-- A piece of a part stands as far behind the start of the part. -/
theorem inner {place : Nat} (stands : StandsAt bytes position part)
    (inside : StandsAt part place piece) : StandsAt bytes (position + place) piece := by
  obtain ⟨front, back, rfl, rfl⟩ := stands
  obtain ⟨before, behind, rfl, rfl⟩ := inside
  exact ⟨front ++ before, behind ++ back, by simp, List.length_append⟩

theorem number {width n : Nat} (stands : StandsAt bytes position (bytesOf width n)) :
    numberAt bytes position width = n % 256 ^ width := by
  have taken := stands.take_drop_eq
  rw [length_bytesOf] at taken
  rw [numberAt, taken, numberOf_bytesOf]

theorem bit (stands : StandsAt bytes position part) {i : Nat} (inside : i / 8 < part.length) :
    bitAt bytes position i = (part.getD (i / 8) 0).toNat.testBit (i % 8) := by
  obtain ⟨front, back, rfl, rfl⟩ := stands
  rw [bitAt, List.append_assoc, List.getD_append_right _ _ _ _ (Nat.le_add_right _ _),
    Nat.add_sub_cancel_left, List.getD_append _ _ _ _ inside]

end StandsAt

theorem and_single_ne_zero (byte : UInt8) {k : Nat} (inside : k < 8) :
    (byte &&& (1 <<< k.toUInt8) != 0) = byte.toNat.testBit k := by
  have single : ((1 : UInt8) <<< k.toUInt8).toNat = 2 ^ k := by
    match k, inside with
    | 0, _ | 1, _ | 2, _ | 3, _ | 4, _ | 5, _ | 6, _ | 7, _ => rfl
  have none : byte &&& (1 <<< k.toUInt8) = 0 ↔ byte.toNat.testBit k = false := by
    rw [← UInt8.toNat_inj, UInt8.toNat_and, single, Nat.and_two_pow]
    cases byte.toNat.testBit k with
    | true => simp
    | false => simp
  rw [Bool.eq_iff_iff, bne_iff_ne, ne_eq, none, Bool.not_eq_false]

/-- The bits are the flags, and behind the last flag they are clear. -/
theorem StandsAt.flag {flags : Array Bool} (stands : StandsAt bytes position (flagBytes flags))
    {i : Nat} (inside : i < 8 * ((flags.size + 7) / 8)) :
    bitAt bytes position i = flags.getD i false := by
  have low : i / 8 < (flags.size + 7) / 8 := by omega
  have byte : (flagBytes flags).getD (i / 8) 0 = flagByte flags (i / 8) := by
    simp [flagBytes, low]
  have rest : i % 8 < 8 := Nat.mod_lt i (by decide)
  rw [stands.bit (by rwa [length_flagBytes]), byte, ← and_single_ne_zero _ rest,
    flagByte_test flags _ _ rest, Nat.div_add_mod]

/-- What is written for an item stands behind what is written for those before it. -/
theorem standsAt_flatMap (write : α → List UInt8) {items : List α} {i : Nat} {a : α}
    (here : items[i]? = some a) :
    StandsAt (items.flatMap write) ((items.take i).flatMap write).length (write a) := by
  obtain ⟨inside, rfl⟩ := List.getElem?_eq_some_iff.mp here
  refine ⟨(items.take i).flatMap write, (items.drop (i + 1)).flatMap write, ?_, rfl⟩
  conv_lhs => rw [← List.take_append_drop i items, List.drop_eq_getElem_cons inside]
  rw [List.flatMap_append, List.flatMap_cons, List.append_assoc]

theorem standsAt_flatMap_const (write : α → List UInt8) (width : Nat)
    (each : ∀ a, (write a).length = width) {items : List α} {i : Nat} {a : α}
    (here : items[i]? = some a) : StandsAt (items.flatMap write) (width * i) (write a) := by
  have stands := standsAt_flatMap write here
  have inside := (List.getElem?_eq_some_iff.mp here).1
  rwa [length_flatMap_const write width each, List.length_take_of_le (Nat.le_of_lt inside)] at stands

/-- Each position is as far behind the first as the payloads before it are long. -/
theorem getElem?_offsetsFrom (position : Nat) (entries : List Entry) (i : Nat) :
    (offsetsFrom position entries)[i]? = entries[i]?.map fun _ =>
      position + ((entries.take i).map fun e => e.container.payloadSize).sum := by
  induction entries generalizing position i with
  | nil => rfl
  | cons e entries ih =>
    cases i with
    | zero => rfl
    | succ i =>
      rw [offsetsFrom, List.getElem?_cons_succ, ih, List.getElem?_cons_succ, List.take_succ_cons,
        List.map_cons, List.sum_cons, Nat.add_assoc]

end Codec

namespace Container

open Codec

variable {c : Container}

/-- The payload is that of a container that the format can tell apart, with the same values. Only
sparse bits are not such a container themselves; their payload is that of the list of their values. -/
theorem WellFormed.payload_fits (formed : c.WellFormed) (some : c.isEmpty = false) :
    ∃ d : Container, c.payload.bytes = d.payload.bytes ∧ Fits (c.kind == .runs) c.cardinality d ∧
      ∀ v, v ∈ d ↔ v ∈ c := by
  by_cases canonical : c.Canonical
  · exact ⟨c, rfl, ⟨storable_of_canonical canonical some, rfl, fun _ => rfl⟩, fun _ => Iff.rfl⟩
  · cases c with
    | array s => exact absurd (formed.canonical_of_kind_ne_bits (by simp [kind])) canonical
    | runs r => exact absurd (formed.canonical_of_kind_ne_bits (by simp [kind])) canonical
    | bits b =>
      have sparse : ¬ ArraySet.maxLength < b.cardinality := fun dense =>
        canonical ⟨formed, fun _ same => Container.bits.inj same ▸ dense⟩
      have size : b.toArraySet.length = b.cardinality := BitSet.WellFormed.size_values formed
      have short : b.toArraySet.length ≤ ArraySet.maxLength := size ▸ Nat.le_of_not_lt sparse
      refine ⟨.array b.toArraySet, ?_, ⟨⟨?_, short⟩, rfl, fun _ => size⟩, formed.mem_values⟩
      · rw [payload_array _ short, payload, if_neg sparse]
        rfl
      · exact Nat.lt_of_lt_of_eq (formed.cardinality_pos some) size.symm

end Container

namespace Bitmap

open Codec

variable {b : Bitmap} {i : Nat} {e : Entry}

/-! The parts of the header. -/

def descriptorsAt (b : Bitmap) : Nat :=
  if b.hasRuns then 4 + (b.containerCount + 7) / 8 else 8

def offsetsAt (b : Bitmap) : Nat := b.descriptorsAt + 4 * b.containerCount

def payloadAt (b : Bitmap) (i : Nat) : Nat :=
  b.header.length + ((b.entries.toList.take i).flatMap fun e => e.container.payload.bytes).length

theorem length_preamble (b : Bitmap) : b.preamble.length = b.descriptorsAt := by
  rw [preamble, descriptorsAt]
  split
  · rw [List.length_append, length_bytesOf, length_flagBytes, Array.size_map, containerCount]
  · rw [List.length_append, length_bytesOf, length_bytesOf]

theorem length_descriptor (e : Entry) : (descriptor e).length = 4 := by
  rw [descriptor, List.length_append, length_bytesOf, length_bytesOf]

theorem stands_flags (runs : b.hasRuns = true) :
    StandsAt b.serialize 4 (flagBytes (b.entries.map fun e => e.container.kind == .runs)) := by
  have stands := standsAt_append (bytesOf 4 (runCookie + 65536 * (b.containerCount - 1)))
    (flagBytes (b.entries.map fun e => e.container.kind == .runs))
    (b.entries.toList.flatMap descriptor ++ b.offsets ++
      b.entries.toList.flatMap fun e => e.container.payload.bytes)
  rw [length_bytesOf] at stands
  rw [serialize, header, preamble, if_pos runs]
  simpa only [List.append_assoc] using stands

theorem stands_descriptor (here : b.entries.toList[i]? = some e) :
    StandsAt b.serialize (b.descriptorsAt + 4 * i) (descriptor e) := by
  have all := standsAt_append b.preamble (b.entries.toList.flatMap descriptor)
    (b.offsets ++ b.entries.toList.flatMap fun e => e.container.payload.bytes)
  rw [length_preamble, ← List.append_assoc] at all
  exact all.inner (standsAt_flatMap_const descriptor 4 length_descriptor here)

theorem stands_offset (written : writesOffsets b.containerCount b.hasRuns = true) {position : Nat}
    (here : (offsetsFrom (headerSize b.containerCount b.hasRuns) b.entries.toList)[i]? =
      some position) :
    StandsAt b.serialize (b.offsetsAt + 4 * i) (bytesOf 4 position) := by
  have all := standsAt_append (b.preamble ++ b.entries.toList.flatMap descriptor) b.offsets
    (b.entries.toList.flatMap fun e => e.container.payload.bytes)
  rw [List.length_append, length_preamble, length_flatMap_const descriptor 4 length_descriptor,
    Array.length_toList] at all
  refine StandsAt.inner all ?_
  rw [offsets, if_pos written]
  exact standsAt_flatMap_const (bytesOf 4) 4 (length_bytesOf 4) here

theorem stands_payload (here : b.entries.toList[i]? = some e) :
    StandsAt b.serialize (b.payloadAt i) e.container.payload.bytes := by
  have all := standsAt_append b.header
    (b.entries.toList.flatMap fun e => e.container.payload.bytes) []
  rw [List.append_nil] at all
  exact all.inner (standsAt_flatMap _ here)

theorem payloadAt_zero (b : Bitmap) : b.payloadAt 0 = b.header.length := rfl

theorem payloadAt_succ (here : b.entries.toList[i]? = some e) :
    b.payloadAt (i + 1) = b.payloadAt i + e.container.payload.bytes.length := by
  obtain ⟨inside, rfl⟩ := List.getElem?_eq_some_iff.mp here
  rw [payloadAt, payloadAt, List.take_succ_eq_append_getElem inside, List.flatMap_append,
    List.length_append, List.flatMap_singleton, Nat.add_assoc]

theorem payloadAt_count (b : Bitmap) : b.payloadAt b.containerCount = b.serialize.length := by
  rw [payloadAt, containerCount, ← Array.length_toList, List.take_length, serialize,
    List.length_append]

theorem payloadAt_le (b : Bitmap) (i : Nat) : b.payloadAt i ≤ b.serialize.length := by
  rw [payloadAt, serialize, List.length_append]
  refine Nat.add_le_add_left ?_ _
  conv_rhs => rw [← List.take_append_drop i b.entries.toList, List.flatMap_append]
  rw [List.length_append]
  exact Nat.le_add_right _ _

/-- The sizes that the offsets are added up from are those of the header and the payloads before. -/
theorem WellFormed.payloadAt_eq (formed : b.WellFormed) (i : Nat) :
    b.payloadAt i = headerSize b.containerCount b.hasRuns +
      ((b.entries.toList.take i).map fun e => e.container.payloadSize).sum := by
  rw [payloadAt, length_header formed.containerCount_le]
  refine congrArg (_ + ·) (length_payloads fun e member => ?_)
  exact (formed.containers e (Array.mem_toList_iff.mp (List.mem_of_mem_take member))).1

/-- What the header says of the container at an index, and what stands where it says. -/
structure Located (b : Bitmap) (i : Nat) (e : Entry) : Prop where
  key : numberAt b.serialize (b.descriptorsAt + 4 * i) 2 = e.key.toNat
  cardinality : 1 ≤ e.container.cardinality ∧
    numberAt b.serialize (b.descriptorsAt + 4 * i + 2) 2 = e.container.cardinality - 1
  /-- Only the low 32 bits of the position are written. -/
  offset : b.hasRuns = false ∨ 4 ≤ b.containerCount →
    numberAt b.serialize (b.offsetsAt + 4 * i) 4 = b.payloadAt i % 2 ^ 32 ∧
      (b.serialize.length < 2 ^ 32 →
        numberAt b.serialize (b.offsetsAt + 4 * i) 4 = b.payloadAt i)
  /-- The payload goes from its position to that of the next one. -/
  payload : (b.serialize.drop (b.payloadAt i)).take (b.payloadAt (i + 1) - b.payloadAt i) =
    e.container.payload.bytes
  /-- A reader that goes there takes the values of the container and stops at the next payload. -/
  read : ∃ c, takePayload (e.container.kind == .runs) e.container.cardinality
      (b.serialize.drop (b.payloadAt i)) = .ok (c, b.serialize.drop (b.payloadAt (i + 1))) ∧
    ∀ v, v ∈ c ↔ v ∈ e.container

/-- The header tells which containers are runs and locates each of them; the payloads stand one
behind the other from the end of the header to the end of the bytes. -/
structure HeaderLocates (b : Bitmap) : Prop where
  flags : b.hasRuns = true → ∀ i < 8 * ((b.containerCount + 7) / 8),
    bitAt b.serialize 4 i = true ↔ ∃ e, b.entries[i]? = some e ∧ e.container.kind = .runs
  located : ∀ i e, b.entries[i]? = some e → b.Located i e
  first : b.payloadAt 0 = headerSize b.containerCount b.hasRuns
  last : b.payloadAt b.containerCount = b.serialize.length

theorem bitAt_flags (runs : b.hasRuns = true) (inside : i < 8 * ((b.containerCount + 7) / 8)) :
    bitAt b.serialize 4 i = true ↔ ∃ e, b.entries[i]? = some e ∧ e.container.kind = .runs := by
  have count : (b.entries.map fun e => e.container.kind == .runs).size = b.containerCount :=
    Array.size_map
  rw [(stands_flags runs).flag (by rwa [count]), Array.getD_eq_getD_getElem?, Array.getElem?_map]
  cases b.entries[i]? with
  | none => simp
  | some e => simp

theorem WellFormed.located (formed : b.WellFormed) (here : b.entries[i]? = some e) :
    b.Located i e := by
  have member : e ∈ b.entries := Array.mem_of_getElem? here
  obtain ⟨formedC, some⟩ := formed.containers e member
  have low := formedC.cardinality_pos some
  have high : e.container.cardinality ≤ 65536 :=
    formedC.cardinality_le Container.wellFormed_full fun v _ => Container.mem_full v
  rw [← Array.getElem?_toList] at here
  have next := payloadAt_succ here
  constructor
  case key =>
    have part : StandsAt (descriptor e) 0 (bytesOf 2 e.key.toNat) := ⟨[], _, rfl, rfl⟩
    rw [← Nat.add_zero (_ + _), ((stands_descriptor here).inner part).number]
    exact Nat.mod_eq_of_lt e.key.toNat_lt
  case cardinality =>
    have part : StandsAt (descriptor e) 2 (bytesOf 2 (e.container.cardinality + 65535)) :=
      ⟨_, [], (List.append_nil _).symm, length_bytesOf _ _⟩
    refine ⟨low, ?_⟩
    rw [((stands_descriptor here).inner part).number]
    omega
  case offset =>
    intro written
    have written : writesOffsets b.containerCount b.hasRuns = true := by
      rw [writesOffsets, Bool.or_eq_true, Bool.not_eq_true', decide_eq_true_eq]
      exact written
    have position := getElem?_offsetsFrom (headerSize b.containerCount b.hasRuns)
      b.entries.toList i
    rw [here, Option.map_some, ← formed.payloadAt_eq i] at position
    have number := (stands_offset written position).number
    refine ⟨number, fun short => ?_⟩
    rw [number]
    exact Nat.mod_eq_of_lt (Nat.lt_of_le_of_lt (b.payloadAt_le i) short)
  case payload =>
    rw [next, Nat.add_sub_cancel_left, (stands_payload here).take_drop_eq]
  case read =>
    obtain ⟨d, written, fits, same⟩ := formedC.payload_fits some
    have takes : Takes Refused _ _ :=
      takes_payload (e.container.kind == .runs) e.container.cardinality low high
    rw [(stands_payload here).drop_eq, ← next]
    exact ⟨d, takes.whole ⟨written, fits⟩ _, same⟩

/-- The header of every well-formed bitmap locates its payloads, however the containers are encoded in
memory and written. -/
theorem header_locates (b : Bitmap) (formed : b.WellFormed) : b.HeaderLocates where
  flags runs _ inside := bitAt_flags runs inside
  located _ _ here := formed.located here
  first := b.payloadAt_zero.trans (length_header formed.containerCount_le)
  last := b.payloadAt_count

/-- Runs, a list, bits that are written as a list, and runs with all values. -/
theorem header_locates_sparse :
    let b : Bitmap := ⟨#[⟨0, .runs ⟨#[⟨5, 9⟩]⟩⟩, ⟨1, .array ⟨#[1, 7]⟩⟩,
      ⟨2, .bits (.ofSortedValues #[5, 64])⟩, ⟨65535, .runs ⟨#[⟨0, 65535⟩]⟩⟩]⟩
    b.WellFormed ∧ b.HeaderLocates ∧ numberAt b.serialize 29 4 = 47 ∧
      (∃ c, takePayload false 2 (b.serialize.drop 47) = .ok (c, b.serialize.drop 51) ∧
        ∀ v, v ∈ c ↔ v ∈ BitSet.ofSortedValues #[5, 64]) := by
  intro b
  have sparse : (Container.bits (.ofSortedValues #[5, 64])).WellFormed :=
    BitSet.wellFormed_ofWords _
  have held : (5 : UInt16) ∈ Container.bits (.ofSortedValues #[5, 64]) :=
    (BitSet.mem_ofSortedValues _ _).mpr (by simp)
  have count : (BitSet.ofSortedValues #[5, 64]).cardinality = 2 :=
    Container.cardinality_ofSortedValues _ (by decide)
  have formed : b.WellFormed := by
    refine ⟨by simp [b], fun e member => ?_⟩
    simp only [b, List.mem_toArray, List.mem_cons, List.not_mem_nil, or_false] at member
    obtain rfl | rfl | rfl | rfl := member
    · exact ⟨by decide, rfl⟩
    · exact ⟨by decide, rfl⟩
    · exact ⟨sparse, Container.isEmpty_eq_false sparse 5 held⟩
    · exact ⟨by decide, rfl⟩
  have locates := header_locates b formed
  have size : (Container.bits (.ofSortedValues #[5, 64])).payloadSize = 4 := by
    rw [Container.payloadSize_sparse (by rw [count]; decide), count]
    rfl
  have runs : b.hasRuns = true := by simp [b, hasRuns, Container.kind]
  have third : b.payloadAt 2 = 47 := by
    rw [formed.payloadAt_eq, runs]
    simp only [b, List.take_succ_cons, List.take_zero, List.map_cons, List.map_nil]
    decide
  have fourth : b.payloadAt 3 = 51 := by
    rw [formed.payloadAt_eq, runs]
    simp only [b, List.take_succ_cons, List.take_zero, List.map_cons, List.map_nil, size]
    decide
  have positions : b.offsetsAt = 21 := by
    rw [offsetsAt, descriptorsAt, if_pos runs, show b.containerCount = 4 from rfl]
  have here := locates.located 2 ⟨2, .bits (.ofSortedValues #[5, 64])⟩ rfl
  have offset := (here.offset (Or.inr (by decide))).1
  rw [positions, third] at offset
  obtain ⟨c, taken, same⟩ := here.read
  rw [third, fourth, show (Container.bits (.ofSortedValues #[5, 64])).cardinality = 2 from count]
    at taken
  exact ⟨formed, locates, offset, c, taken, same⟩

end Bitmap

end Roaring
