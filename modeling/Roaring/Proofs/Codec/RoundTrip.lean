import Roaring.Proofs.Codec.Form
import Roaring.Proofs.Validation

/-! Reading back what was written. Any bitmap whose containers the format can tell apart comes back
as it was; canonical bitmaps are of that kind and valid besides. -/
namespace Roaring

namespace Codec

theorem Storable.described {c : Container} (storable : Storable c) (other : c.kind ≠ .runs) :
    (c.cardinality + 65535) % 65536 + 1 = c.cardinality := by
  have limits : 0 < c.cardinality ∧ c.cardinality ≤ 65536 := by
    cases c with
    | array s => exact ⟨storable.1, storable.2.trans (by decide)⟩
    | bits b => exact ⟨Nat.zero_lt_of_lt storable.1, storable.2⟩
    | runs r => exact absurd rfl other
  omega

/-- All canonical containers but one: the empty list has no cardinality that could be written. -/
theorem storable_of_ne_empty {c : Container} (canonical : c.Canonical) (other : c ≠ .empty) :
    Storable c := by
  obtain ⟨formed, dense⟩ := canonical
  cases c with
  | array s =>
    refine ⟨Nat.pos_of_ne_zero fun none => other ?_, formed.2⟩
    have values : s.values = #[] := Array.eq_empty_of_size_eq_zero none
    exact congrArg (Container.array ∘ ArraySet.mk) values
  | bits b =>
    have counted : b.cardinality = b.words.count := formed
    exact ⟨dense b rfl, counted ▸ b.words.count_le⟩
  | runs r =>
    have few := Run.Canonical.length_le formed 0 (by decide) fun n _ => Nat.zero_le n
    rw [Array.length_toList] at few
    change r.runs.size < 65536
    omega

theorem storable_of_canonical {c : Container} (canonical : c.Canonical)
    (some : c.isEmpty = false) : Storable c := by
  apply storable_of_ne_empty canonical
  rintro rfl
  contradiction

/-- A container with what its own descriptor says of it. -/
def slotOf (e : Entry) : Slot := ⟨e.key, (described e).2, e.container⟩

end Codec

namespace Bitmap

open Codec

def runFlags (b : Bitmap) : Option (Array UInt8) :=
  if b.hasRuns then some (flagBytes (b.entries.map fun e => e.container.kind == .runs)).toArray
  else none

theorem isSome_runFlags (b : Bitmap) : b.runFlags.isSome = b.hasRuns := by
  rw [runFlags]
  split
  · simp [*]
  · simp [*]

theorem isFlagged_runFlags (b : Bitmap) (i : Nat) (inside : i < b.entries.size) :
    isFlagged b.runFlags i = (b.entries[i].container.kind == .runs) := by
  rw [runFlags]
  split
  · rw [isFlagged_flagBytes _ i (by simpa using inside), Array.getElem_map]
  · rename_i plain
    have other : (b.entries[i].container.kind == .runs) = false := by
      rw [hasRuns, Bool.not_eq_true, Array.any_eq_false] at plain
      simpa using plain i inside
    rw [other]
    rfl

theorem announced (b : Bitmap) (few : b.containerCount ≤ 65536) :
    Announced b.containerCount b.runFlags := by
  refine ⟨few, fun flagged => ?_, ?_⟩
  · rw [isSome_runFlags] at flagged
    obtain ⟨i, inside, -⟩ := Array.any_eq_true.mp flagged
    exact Nat.zero_lt_of_lt inside
  · rw [runFlags]
    split
    · rintro bits ⟨rfl⟩
      rw [List.size_toArray, length_flagBytes, Array.size_map, containerCount]
    · intro bits none
      contradiction

theorem preamble_eq (b : Bitmap) : b.preamble =
    bytesOf 4 (cookieFor b.containerCount b.runFlags) ++ countBytes b.containerCount b.runFlags := by
  rw [preamble, runFlags]
  split
  · rfl
  · rfl

theorem descriptor_eq (e : Entry) : descriptor e = (slotOf e).descriptor := by
  rw [descriptor, ← bytesOf_mod 2 (e.container.cardinality + 65535), Slot.descriptor, slotOf,
    described, Nat.add_sub_cancel]
  rfl

theorem length_offsetsFrom (position : Nat) (entries : List Entry) :
    (offsetsFrom position entries).length = entries.length := by
  induction entries generalizing position with
  | nil => rfl
  | cons e entries ih => rw [offsetsFrom, List.length_cons, ih, List.length_cons]

theorem offsets_eq (position : Nat) (entries : List Entry) :
    (offsetsFrom position entries).flatMap (bytesOf 4) =
      ((offsetsFrom position entries).map Nat.toUInt32).flatMap fun p => bytesOf 4 p.toNat := by
  rw [List.flatMap_map]
  congr 1
  funext n
  rw [Nat.toUInt32_eq, UInt32.toNat_ofNat']
  exact (bytesOf_mod 4 n).symm

/-- The header is read back whatever the containers are; the payloads are then taken as it announces
them. -/
theorem takeBitmap_serialize (b : Bitmap) (few : b.containerCount ≤ 65536) (rest : List UInt8) :
    takeBitmap (b.serialize ++ rest) =
      (takePayloads b.runFlags (b.entries.toList.map described) 0 #[]
        (b.entries.toList.flatMap (fun e => e.container.payload.bytes) ++ rest)).map
          fun taken => (⟨taken.1⟩, taken.2) := by
  have size : b.entries.toList.length = b.containerCount := Array.length_toList
  have announced : Takes Refused _ _ := takes_preamble
  have descriptors : Takes Refused _ _ := takes_many takes_descriptor b.containerCount
  have positions : Takes Refused _ _ := takes_positions b.containerCount
  have all : b.entries.toList.flatMap descriptor =
      (b.entries.toList.map described).flatMap fun d =>
        bytesOf 2 d.1.toNat ++ bytesOf 2 (d.2 - 1) := by
    rw [List.flatMap_map]
    exact congrArg (fun write => b.entries.toList.flatMap write) (funext descriptor_eq)
  rw [takeBitmap, serialize, header, List.append_assoc, List.append_assoc, List.append_assoc,
    bind_of_ok (announced.whole (a := (b.containerCount, b.runFlags))
      ⟨preamble_eq b, b.announced few⟩ _)]
  simp only
  rw [bind_of_ok (descriptors.whole (a := (b.entries.toList.map described).toArray)
    ⟨all, by simp [size], List.forall_mem_map.mpr fun e _ => declared_described e⟩ _),
    isSome_runFlags, offsets]
  split
  · rw [bind_of_ok (positions.whole ⟨_, offsets_eq _ _, by
      rw [List.length_map, length_offsetsFrom, size], List.toList_toArray⟩ _)]
    exact bind_pure_eq_map _ _ _
  · exact bind_pure_eq_map _ _ _

/-- Every bitmap that the format can tell apart is read back as it was written, up to the last of
its bytes. -/
theorem takeBitmap_written (b : Bitmap) (few : b.containerCount ≤ 65536)
    (storable : ∀ e ∈ b.entries.toList, Storable e.container) (rest : List UInt8) :
    takeBitmap (b.serialize ++ rest) = .ok (b, rest) := by
  have payloads : Takes Refused _ _ := takes_payloads b.runFlags (b.entries.toList.map described)
    (List.forall_mem_map.mpr fun e _ => declared_described e) 0 #[]
  have fits : ∀ s ∈ (b.entries.toList.map slotOf).zipIdx 0,
      Fits (isFlagged b.runFlags s.2) s.1.declared s.1.container := by
    rw [List.zipIdx_map]
    refine List.forall_mem_map.mpr ?_
    rintro ⟨e, i⟩ member
    rw [List.mk_mem_zipIdx_iff_getElem?, Array.getElem?_toList] at member
    obtain ⟨inside, rfl⟩ := Array.getElem?_eq_some_iff.mp member
    have good := storable _ (Array.getElem_mem_toList inside)
    have flag := isFlagged_runFlags b i inside
    refine ⟨good, flag.symm, fun plain => (good.described ?_).symm⟩
    simpa using flag.symm.trans plain
  have written : b.entries.toList.flatMap (fun e => e.container.payload.bytes) =
      (b.entries.toList.map slotOf).flatMap fun s => s.container.payload.bytes := by
    rw [List.flatMap_map]
    rfl
  have entries : b.entries.toList = (b.entries.toList.map slotOf).map Slot.entry := by
    simp [slotOf, Slot.entry, Function.comp_def]
  rw [takeBitmap_serialize b few,
    payloads.whole ⟨b.entries.toList.map slotOf, List.map_map, entries, written, fits⟩ rest]
  rfl

/-- No more keys than there are halves. -/
theorem containerCount_le {b : Bitmap}
    (ascending : b.entries.toList.Pairwise (fun d e => d.key < e.key)) :
    b.containerCount ≤ 65536 := by
  have distinct : (b.entries.toList.map fun e => e.key.toNat).Nodup := by
    apply List.pairwise_map.mpr
    exact ascending.imp fun lt => Nat.ne_of_lt (UInt16.lt_iff_toNat_lt.mp lt)
  have inside : (b.entries.toList.map fun e => e.key.toNat) ⊆ List.range 65536 := by
    intro n member
    obtain ⟨e, -, rfl⟩ := List.mem_map.mp member
    exact List.mem_range.mpr e.key.toNat_lt
  have short := (distinct.subperm inside).length_le
  rwa [List.length_map, List.length_range, Array.length_toList] at short

theorem WellFormed.containerCount_le {b : Bitmap} (formed : b.WellFormed) :
    b.containerCount ≤ 65536 :=
  Bitmap.containerCount_le formed.ascending

/-- A canonical bitmap is read back from the front of any bytes that start with its serialized form,
what follows stays unread, and the validation has nothing against it. -/
theorem deserialize_serialize (b : Bitmap) (canonical : b.Canonical) (rest : List UInt8) :
    deserialize (b.serialize ++ rest) = .ok (b, rest) ∧
      deserializeValidated b.serialize = .ok (.ok b) := by
  have few := canonical.toWellFormed.containerCount_le
  have storable : ∀ e ∈ b.entries.toList, Storable e.container := by
    intro e member
    rw [Array.mem_toList_iff] at member
    exact storable_of_canonical (canonical.dense e member) (canonical.containers e member).2
  have whole := takeBitmap_written b few storable []
  rw [List.append_nil] at whole
  refine ⟨takeBitmap_written b few storable rest, ?_⟩
  have slice : deserializeSlice b.serialize = .ok b := by
    rw [deserializeSlice, deserialize, whole]
    rfl
  exact (accepted_iff _ b).mpr
    ⟨slice, canonical.ascending, fun e member => (canonical.containers e member).1⟩

/-- A list and the run of all values, under the first and the last key. -/
theorem deserialize_serialize_two_keys :
    let b : Bitmap := ⟨#[⟨0, .array ⟨#[1, 7]⟩⟩, ⟨65535, .runs ⟨#[⟨0, 65535⟩]⟩⟩]⟩
    b.Canonical ∧ deserialize (b.serialize ++ [59, 48]) = .ok (b, [59, 48]) ∧
      deserializeValidated b.serialize = .ok (.ok b) := by
  intro b
  have canonical : b.Canonical := by decide
  exact ⟨canonical, deserialize_serialize b canonical [59, 48]⟩

end Bitmap

end Roaring
