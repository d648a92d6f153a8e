import Mathlib.Algebra.GroupWithZero.Nat
import Mathlib.Data.List.Basic
import Roaring.Proofs.Codec.Grammar

/-! The forms that can be read. A form names everything that the bytes leave open: the flags with
their padding, the cardinalities announced for runs and the positions of the payloads, none of which
leaves a trace in the bitmap. A bitmap is read from the front of some bytes exactly when they start
with one of its forms; how long that form is follows from its header and its run counts. -/
namespace Roaring.Codec

variable {refused : Error → Prop}

/-! Payloads. -/

theorem takes_run : Takes refused takeRun fun bytes r =>
    bytes = bytesOf 2 r.start.toNat ++ bytesOf 2 r.length.toNat := by
  refine ((takes_number .runPayload 2).bind fun _ start _ =>
    (takes_number .runPayload 2).map fun length =>
      Run.mk start.toUInt16 length.toUInt16).congr fun bytes r => ?_
  constructor
  · rintro ⟨front, back, start, rfl, ⟨rfl, first⟩, length, ⟨rfl, second⟩, rfl⟩
    rw [toNat_toUInt16 first, toNat_toUInt16 second]
  · rintro rfl
    exact ⟨_, _, r.start.toNat, rfl, ⟨rfl, r.start.toNat_lt⟩, r.length.toNat,
      ⟨rfl, r.length.toNat_lt⟩, by simp⟩

theorem takes_words : Takes refused takeWords fun bytes ws => bytes = wordBytes ws := by
  refine ((takes_many ((takes_word .bitPayload).congr fun _ _ => (and_iff_left trivial).symm)
    1024).map _).congr fun bytes ws => ?_
  constructor
  · rintro ⟨words, ⟨rfl, size, -⟩, rfl⟩
    have same : (Vector.ofFn fun i : Fin 1024 => words.getD i 0).toList = words.toList := by
      apply List.ext_getElem
      · simp [size]
      · intro i left right
        simp at right
        simp [right]
    rw [wordBytes, same]
  · rintro rfl
    refine ⟨ws.toArray, ⟨rfl, ws.size_toArray, fun _ _ => trivial⟩, ?_⟩
    apply Vector.ext
    intro i inside
    simp

theorem payload_array (s : ArraySet) (short : s.length ≤ ArraySet.maxLength) :
    (Container.array s).payload.bytes = valueBytes s.values := by
  rw [Container.payload, if_pos short]

theorem payload_bits (b : BitSet) (dense : ArraySet.maxLength < b.cardinality) :
    (Container.bits b).payload.bytes = wordBytes b.words := by
  rw [Container.payload, if_pos dense]

/-- What a payload under a flag and a declared cardinality may stand for. -/
structure Fits (flagged : Bool) (declared : Nat) (c : Container) : Prop where
  storable : Storable c
  kind : (c.kind == .runs) = flagged
  counted : flagged = false → c.cardinality = declared

theorem takes_flagged (declared : Nat) :
    Takes refused (takePayload true declared) fun bytes c =>
      bytes = c.payload.bytes ∧ Fits true declared c := by
  refine ((takes_number .runPayload 2).bind fun _ count _ =>
    (takes_many (takes_run.congr fun _ _ => (and_iff_left trivial).symm) count).map fun runs =>
      Container.runs ⟨runs⟩).congr fun bytes c => ?_
  constructor
  · rintro ⟨front, back, count, rfl, ⟨rfl, small⟩, runs, ⟨rfl, rfl, -⟩, rfl⟩
    exact ⟨rfl, small, rfl, nofun⟩
  · rintro ⟨rfl, storable, kind, -⟩
    cases c with
    | runs r => exact ⟨_, _, r.countRuns, rfl, ⟨rfl, storable⟩, r.runs, ⟨rfl, rfl, by simp⟩, rfl⟩
    | array s => contradiction
    | bits b => contradiction

theorem takes_dense (declared : Nat) (many : ArraySet.maxLength < declared)
    (inside : declared ≤ 65536) :
    Takes refused (takePayload false declared) fun bytes c =>
      bytes = c.payload.bytes ∧ Fits false declared c := by
  rw [takePayload, if_neg Bool.false_ne_true, if_pos many]
  refine (takes_words.map fun ws => Container.bits ⟨ws, declared.toUInt64⟩).congr
    fun bytes c => ?_
  constructor
  · rintro ⟨ws, rfl, rfl⟩
    have kept : (BitSet.mk ws declared.toUInt64).cardinality = declared :=
      UInt64.toNat_ofNat_of_lt (Nat.lt_of_le_of_lt inside (by decide))
    have dense : ArraySet.maxLength < (BitSet.mk ws declared.toUInt64).cardinality :=
      Nat.lt_of_lt_of_eq many kept.symm
    exact ⟨(payload_bits _ dense).symm, ⟨dense, Nat.le_trans (Nat.le_of_eq kept) inside⟩, rfl,
      fun _ => kept⟩
  · rintro ⟨rfl, storable, kind, counted⟩
    cases c with
    | bits b =>
      have same : b.cached.toNat = declared := counted rfl
      refine ⟨b.words, payload_bits b storable.1, ?_⟩
      rw [← same, Nat.toUInt64_eq, UInt64.ofNat_toNat]
    | array s =>
      have short : s.length ≤ ArraySet.maxLength := storable.2
      have same : s.length = declared := counted rfl
      omega
    | runs r => contradiction

theorem takes_sparse (declared : Nat) (short : declared ≤ ArraySet.maxLength)
    (some : 0 < declared) :
    Takes refused (takePayload false declared) fun bytes c =>
      bytes = c.payload.bytes ∧ Fits false declared c := by
  rw [takePayload, if_neg Bool.false_ne_true, if_neg (Nat.not_lt.mpr short)]
  refine ((takes_many ((takes_value .arrayPayload).congr fun _ _ => (and_iff_left trivial).symm)
    declared).map fun values => Container.array ⟨values⟩).congr fun bytes c => ?_
  constructor
  · rintro ⟨values, ⟨rfl, size, -⟩, rfl⟩
    have few : (ArraySet.mk values).length ≤ ArraySet.maxLength :=
      Nat.le_trans (Nat.le_of_eq size) short
    exact ⟨(payload_array _ few).symm, ⟨Nat.lt_of_lt_of_eq some size.symm, few⟩, rfl, fun _ => size⟩
  · rintro ⟨rfl, storable, kind, counted⟩
    cases c with
    | array s =>
      exact ⟨s.values, ⟨payload_array s storable.2, counted rfl, fun _ _ => trivial⟩, rfl⟩
    | bits b =>
      have dense : ArraySet.maxLength < b.cardinality := storable.1
      have same : b.cardinality = declared := counted rfl
      omega
    | runs r => contradiction

theorem takes_payload (flagged : Bool) (declared : Nat) (some : 0 < declared)
    (inside : declared ≤ 65536) :
    Takes refused (takePayload flagged declared) fun bytes c =>
      bytes = c.payload.bytes ∧ Fits flagged declared c := by
  cases flagged with
  | true => exact takes_flagged declared
  | false =>
    rcases Nat.lt_or_ge ArraySet.maxLength declared with many | short
    · exact takes_dense declared many inside
    · exact takes_sparse declared short some

/-! Descriptors, and the payloads that they describe. -/

/-- A container and what the header says of it. -/
structure Slot where
  key : UInt16
  declared : Nat
  container : Container

namespace Slot

def entry (s : Slot) : Entry := ⟨s.key, s.container⟩

def described (s : Slot) : UInt16 × Nat := (s.key, s.declared)

def descriptor (s : Slot) : List UInt8 := bytesOf 2 s.key.toNat ++ bytesOf 2 (s.declared - 1)

def payloadSize (flagged : Bool) (s : Slot) : Nat :=
  if flagged then 2 + 4 * s.container.countRuns
  else if s.declared ≤ 4096 then 2 * s.declared
  else 8192

end Slot

theorem takes_descriptor : Takes refused takeDescriptor fun bytes d =>
    bytes = bytesOf 2 d.1.toNat ++ bytesOf 2 (d.2 - 1) ∧ Declared d := by
  refine ((takes_number .descriptors 2).bind fun _ key _ =>
    (takes_number .descriptors 2).map fun cardinality =>
      (key.toUInt16, cardinality + 1)).congr fun bytes d => ?_
  constructor
  · rintro ⟨front, back, key, rfl, ⟨rfl, small⟩, cardinality, ⟨rfl, low⟩, rfl⟩
    exact ⟨by rw [toNat_toUInt16 small, Nat.add_sub_cancel], Nat.succ_pos _, Nat.succ_le_of_lt low⟩
  · rintro ⟨rfl, some, inside⟩
    refine ⟨_, _, d.1.toNat, rfl, ⟨rfl, d.1.toNat_lt⟩, d.2 - 1, ⟨rfl, by omega⟩, ?_⟩
    rw [Nat.sub_add_cancel some, Nat.toUInt16_eq, UInt16.ofNat_toNat]

theorem takePayloads_cons (flags : Option (Array UInt8)) (d : UInt16 × Nat)
    (descriptors : List (UInt16 × Nat)) (i : Nat) (out : Array Entry) :
    takePayloads flags (d :: descriptors) i out = (takePayload (isFlagged flags i) d.2 >>= fun c =>
      takePayloads flags descriptors (i + 1) (out.push ⟨d.1, c⟩) : Reader (Array Entry)) := by
  funext unread
  change _ = (takePayload (isFlagged flags i) d.2 unread >>= _)
  rw [takePayloads]
  cases takePayload (isFlagged flags i) d.2 unread with
  | error e => rfl
  | ok p => rfl

theorem takes_payloads (flags : Option (Array UInt8)) (descriptors : List (UInt16 × Nat))
    (declared : ∀ d ∈ descriptors, Declared d) (i : Nat) (out : Array Entry) :
    Takes refused (takePayloads flags descriptors i out) fun bytes entries =>
      ∃ slots : List Slot, slots.map Slot.described = descriptors ∧
        entries.toList = out.toList ++ slots.map Slot.entry ∧
        bytes = slots.flatMap (fun s => s.container.payload.bytes) ∧
        ∀ s ∈ slots.zipIdx i, Fits (isFlagged flags s.2) s.1.declared s.1.container := by
  induction descriptors generalizing i out with
  | nil =>
    refine (takes_pure out).congr fun bytes entries => ?_
    constructor
    · rintro ⟨rfl, rfl⟩
      exact ⟨[], by simp⟩
    · rintro ⟨slots, none, parts, rfl, -⟩
      obtain rfl := List.map_eq_nil_iff.mp none
      exact ⟨rfl, Array.toList_inj.mp (by simp [parts])⟩
  | cons d descriptors ih =>
    obtain ⟨⟨some, inside⟩, rest⟩ := List.forall_mem_cons.mp declared
    rw [takePayloads_cons]
    refine ((takes_payload _ d.2 some inside).bind fun _ c _ =>
      ih rest (i + 1) (out.push ⟨d.1, c⟩)).congr fun bytes entries => ?_
    constructor
    · rintro ⟨front, back, c, rfl, ⟨rfl, fits⟩, slots, rfl, parts, rfl, all⟩
      refine ⟨⟨d.1, d.2, c⟩ :: slots, rfl, by simp [parts, Slot.entry], rfl, ?_⟩
      rw [List.zipIdx_cons]
      exact List.forall_mem_cons.mpr ⟨fits, all⟩
    · rintro ⟨slots, described, parts, rfl, all⟩
      obtain ⟨s, slots, rfl, rfl, rfl⟩ := List.map_eq_cons_iff.mp described
      rw [List.zipIdx_cons] at all
      obtain ⟨fits, later⟩ := List.forall_mem_cons.mp all
      exact ⟨_, _, s.container, rfl, ⟨rfl, fits⟩, slots, rfl, by simp [parts, Slot.entry,
        Slot.described], rfl, later⟩

/-! The preamble. -/

/-- The errors that bytes can be refused with. -/
def Refused (e : Error) : Prop :=
  (∃ cookie, e = .invalidCookie cookie) ∨ ∃ count, e = .invalidContainerCount count

/-- A container count that can be announced, with flags for so many or without any. -/
structure Announced (count : Nat) (flags : Option (Array UInt8)) : Prop where
  few : count ≤ 65536
  some : flags.isSome → 0 < count
  size : ∀ bits ∈ flags, bits.size = (count + 7) / 8

/-- The first four bytes as a number: the form, and where there are flags the container count. -/
def cookieFor (count : Nat) : Option (Array UInt8) → Nat
  | none => plainCookie
  | some _ => runCookie + 65536 * (count - 1)

/-- What follows the first four bytes: the container count, or the flags. -/
def countBytes (count : Nat) : Option (Array UInt8) → List UInt8
  | none => bytesOf 4 count
  | some bits => bits.toList

theorem Announced.cookieFor_lt {count : Nat} {flags : Option (Array UInt8)}
    (announced : Announced count flags) : cookieFor count flags < 256 ^ 4 := by
  have few := announced.few
  cases flags with
  | none =>
    change plainCookie < 256 ^ 4
    decide
  | some bits =>
    simp only [cookieFor, runCookie]
    omega

theorem cookieFor_flags (count : Nat) (bits : Array UInt8) (some : 0 < count) :
    cookieFor count (Option.some bits) % 65536 = runCookie ∧
      cookieFor count (Option.some bits) / 65536 + 1 = count ∧
      cookieFor count (Option.some bits) ≠ plainCookie := by
  simp only [cookieFor, runCookie, plainCookie]
  omega

theorem takes_count :
    Takes Refused (do
      let count ← takeNumber .containerCount 4
      if 65536 < count then throw (.invalidContainerCount count)
      return (count, (none : Option (Array UInt8)))) fun bytes p =>
        bytes = countBytes p.1 p.2 ∧ p.2 = none ∧ Announced p.1 p.2 := by
  refine ((takes_number .containerCount 4).bind fun _ count _ => (?_ : Takes Refused _
    fun back p => back = [] ∧ p = (count, none) ∧ count ≤ 65536)).congr
      fun bytes ⟨count, flags⟩ => ?_
  · split
    · rename_i many
      refine (takes_refused (Or.inr ⟨count, rfl⟩)).congr fun back p => ?_
      exact iff_of_false id fun few => Nat.not_lt.mpr few.2.2 many
    · rename_i few
      refine (takes_pure _).congr fun back p => ?_
      exact and_congr_right fun _ => ⟨fun same => ⟨same.symm, Nat.le_of_not_lt few⟩,
        fun both => both.1.symm⟩
  · constructor
    · rintro ⟨front, back, n, rfl, ⟨rfl, -⟩, rfl, same, few⟩
      obtain ⟨rfl, rfl⟩ := Prod.mk.inj same
      exact ⟨List.append_nil _, rfl, few, nofun, nofun⟩
    · rintro ⟨rfl, rfl, announced⟩
      have few := announced.few
      exact ⟨_, [], count, (List.append_nil _).symm, ⟨rfl, Nat.lt_of_le_of_lt few (by decide)⟩,
        rfl, rfl, few⟩

theorem takes_flags (count : Nat) (some : 0 < count) (few : count ≤ 65536) :
    Takes refused (do
      let flags ← takeBytes .runFlags ((count + 7) / 8)
      return (count, Option.some flags.toArray)) fun bytes p =>
        bytes = countBytes p.1 p.2 ∧ p.2.isSome ∧ p.1 = count ∧ Announced p.1 p.2 := by
  refine ((takes_bytes .runFlags _).map fun flags : List UInt8 =>
    (count, Option.some flags.toArray)).congr fun bytes ⟨n, flags⟩ => ?_
  constructor
  · rintro ⟨flags, ⟨rfl, size⟩, same⟩
    obtain ⟨rfl, rfl⟩ := Prod.mk.inj same
    refine ⟨rfl, rfl, rfl, few, fun _ => some, ?_⟩
    rintro bits ⟨rfl⟩
    exact size
  · rintro ⟨rfl, present, rfl, announced⟩
    obtain ⟨bits, rfl⟩ := Option.isSome_iff_exists.mp present
    exact ⟨bits.toList, ⟨rfl, announced.size bits rfl⟩, rfl⟩

theorem takes_preamble : Takes Refused takePreamble fun bytes p =>
    bytes = bytesOf 4 (cookieFor p.1 p.2) ++ countBytes p.1 p.2 ∧ Announced p.1 p.2 := by
  refine ((takes_number .cookie 4).bind fun front cookie formed => (?_ : Takes Refused _
    fun back (p : Nat × Option (Array UInt8)) =>
      cookie = cookieFor p.1 p.2 ∧ back = countBytes p.1 p.2 ∧ Announced p.1 p.2)).congr
        fun bytes p => ?_
  · have small := formed.2
    -- the cookie decides the form: `flags` are there or not, and so `cookieFor` is one or the other
    split
    · rename_i plain
      refine takes_count.congr fun back ⟨count, flags⟩ => ?_
      constructor
      · rintro ⟨rfl, rfl, announced⟩
        exact ⟨plain, rfl, announced⟩
      · rintro ⟨rfl, rfl, announced⟩
        cases flags with
        | none => exact ⟨rfl, rfl, announced⟩
        | some bits => exact absurd plain (cookieFor_flags _ bits (announced.some rfl)).2.2
    · rename_i notPlain
      split
      · rename_i withFlags
        refine (takes_flags _ (Nat.succ_pos _) (by omega)).congr fun back ⟨count, flags⟩ => ?_
        constructor
        · rintro ⟨rfl, present, rfl, announced⟩
          obtain ⟨bits, rfl⟩ := Option.isSome_iff_exists.mp present
          refine ⟨?_, rfl, announced⟩
          simp only [cookieFor]
          omega
        · rintro ⟨rfl, rfl, announced⟩
          cases flags with
          | none => exact absurd rfl notPlain
          | some bits =>
            exact ⟨rfl, rfl, (cookieFor_flags _ bits (announced.some rfl)).2.1.symm, announced⟩
      · rename_i other
        refine (takes_refused (Or.inl ⟨_, rfl⟩)).congr fun back ⟨count, flags⟩ => ?_
        refine iff_of_false id ?_
        rintro ⟨rfl, -, announced⟩
        cases flags with
        | none => exact notPlain rfl
        | some bits => exact other (cookieFor_flags _ bits (announced.some rfl)).1
  · constructor
    · rintro ⟨front, back, cookie, rfl, ⟨rfl, -⟩, rfl, rfl, announced⟩
      exact ⟨rfl, announced⟩
    · rintro ⟨rfl, announced⟩
      exact ⟨_, _, _, rfl, ⟨rfl, announced.cookieFor_lt⟩, rfl, rfl, announced⟩

/-! The whole form. -/

/-- A serialized form with all that it leaves open. -/
structure Form where
  flags : Option (Array UInt8)
  slots : List Slot
  positions : List UInt32
  announced : Announced slots.length flags
  declared : ∀ s ∈ slots, Declared s.described
  fits : ∀ s ∈ slots.zipIdx, Fits (isFlagged flags s.2) s.1.declared s.1.container
  placed : positions.length = if writesOffsets slots.length flags.isSome then slots.length else 0

namespace Form

def bitmap (f : Form) : Bitmap := ⟨(f.slots.map Slot.entry).toArray⟩

def header (f : Form) : List UInt8 :=
  bytesOf 4 (cookieFor f.slots.length f.flags) ++ countBytes f.slots.length f.flags ++
    f.slots.flatMap Slot.descriptor ++ f.positions.flatMap fun p => bytesOf 4 p.toNat

def bytes (f : Form) : List UInt8 :=
  f.header ++ f.slots.flatMap fun s => s.container.payload.bytes

end Form

theorem takes_positions (count : Nat) :
    Takes refused (takeMany count (takeNumber .offsets 4)) fun bytes xs =>
      ∃ positions : List UInt32, bytes = positions.flatMap (fun p => bytesOf 4 p.toNat) ∧
        positions.length = count ∧ xs.toList = positions.map UInt32.toNat := by
  refine (takes_many (takes_number .offsets 4) count).congr
    fun bytes xs => ?_
  constructor
  · rintro ⟨rfl, rfl, small⟩
    have same : (xs.toList.map Nat.toUInt32).map UInt32.toNat = xs.toList := by
      rw [List.map_map]
      refine (List.map_congr_left fun n member => ?_).trans (List.map_id _)
      exact UInt32.toNat_ofNat_of_lt' (small n member)
    refine ⟨xs.toList.map Nat.toUInt32, ?_, by simp, same.symm⟩
    rw [← List.flatMap_map UInt32.toNat (bytesOf 4), same]
  · rintro ⟨positions, rfl, rfl, same⟩
    refine ⟨?_, ?_, ?_⟩
    · rw [same, List.flatMap_map]
    · rw [← Array.length_toList, same, List.length_map]
    · rw [same]
      exact List.forall_mem_map.mpr fun p _ => p.toNat_lt

theorem takes_body (flags : Option (Array UInt8)) (descriptors : List (UInt16 × Nat))
    (declared : ∀ d ∈ descriptors, Declared d) (count : Nat) (placed : Bool) :
    Takes refused (do
      if placed then
        let _ ← takeMany count (takeNumber .offsets 4)
      let entries ← takePayloads flags descriptors 0 #[]
      return (⟨entries⟩ : Bitmap)) fun bytes b =>
        ∃ (positions : List UInt32) (slots : List Slot),
          bytes = positions.flatMap (fun p => bytesOf 4 p.toNat) ++
            slots.flatMap (fun s => s.container.payload.bytes) ∧
          positions.length = (if placed then count else 0) ∧
          slots.map Slot.described = descriptors ∧ b.entries.toList = slots.map Slot.entry ∧
          ∀ s ∈ slots.zipIdx, Fits (isFlagged flags s.2) s.1.declared s.1.container := by
  have payloads : Takes refused _ _ :=
    (takes_payloads flags descriptors declared 0 #[]).map Bitmap.mk
  cases placed with
  | true =>
    refine ((takes_positions count).bind fun _ _ _ => payloads).congr fun bytes b => ?_
    constructor
    · rintro ⟨front, back, xs, rfl, ⟨positions, rfl, size, -⟩, entries, ⟨slots, described, parts,
        rfl, fits⟩, rfl⟩
      exact ⟨positions, slots, rfl, size, described, parts, fits⟩
    · rintro ⟨positions, slots, rfl, size, described, parts, fits⟩
      exact ⟨_, _, (positions.map UInt32.toNat).toArray, rfl, ⟨positions, rfl, size, rfl⟩,
        b.entries, ⟨slots, described, parts, rfl, fits⟩, rfl⟩
  | false =>
    refine payloads.congr fun bytes b => ?_
    constructor
    · rintro ⟨entries, ⟨slots, described, parts, rfl, fits⟩, rfl⟩
      exact ⟨[], slots, rfl, rfl, described, parts, fits⟩
    · rintro ⟨positions, slots, rfl, none, described, parts, fits⟩
      obtain rfl := List.length_eq_zero_iff.mp none
      exact ⟨b.entries, ⟨slots, described, parts, rfl, fits⟩, rfl⟩

theorem takes_bitmap : Takes Refused takeBitmap fun bytes b =>
    ∃ f : Form, f.bytes = bytes ∧ f.bitmap = b := by
  refine (takes_preamble.bind fun _ p _ => (takes_many takes_descriptor p.1).bind
    fun _ descriptors described => takes_body p.2 descriptors.toList described.2.2 p.1
      (writesOffsets p.1 p.2.isSome)).congr fun bytes b => ?_
  constructor
  · rintro ⟨_, _, ⟨count, flags⟩, rfl, ⟨rfl, announced⟩, _, _, descriptors, rfl, ⟨rfl, size,
      declared⟩, positions, slots, rfl, placed, described, parts, fits⟩
    have length := congrArg List.length described
    rw [List.length_map, Array.length_toList] at length
    obtain rfl : slots.length = count := length.trans size
    refine ⟨⟨flags, slots, positions, announced, ?_, fits, placed⟩, ?_, ?_⟩
    · intro s member
      exact declared _ (described ▸ List.mem_map_of_mem member)
    · simp only [Form.bytes, Form.header, List.append_assoc, ← described, List.flatMap_map]
      rfl
    · exact congrArg Bitmap.mk (Array.toList_inj.mp parts.symm)
  · rintro ⟨f, rfl, rfl⟩
    refine ⟨_, _, (f.slots.length, f.flags), ?_, ⟨rfl, f.announced⟩, _, _,
      (f.slots.map Slot.described).toArray, rfl, ⟨rfl, by simp, ?_⟩, f.positions, f.slots, rfl,
      f.placed, rfl, rfl, f.fits⟩
    · simp only [Form.bytes, Form.header, List.append_assoc, List.flatMap_map]
      rfl
    · exact List.forall_mem_map.mpr f.declared

/-! How long a form is. -/

theorem length_flatMap_const {α : Type} (write : α → List UInt8) (width : Nat)
    (each : ∀ a, (write a).length = width) (items : List α) :
    (items.flatMap write).length = width * items.length := by
  rw [List.length_flatMap]
  simp [each, Nat.mul_comm]

theorem length_valueBytes (values : Array UInt16) :
    (valueBytes values).length = 2 * values.size := by
  rw [valueBytes, length_flatMap_const _ 2 (by simp [length_bytesOf]), Array.length_toList]

theorem length_wordBytes (ws : Words) : (wordBytes ws).length = BitSet.serializedSize := by
  rw [wordBytes, length_flatMap_const _ 8 (by simp [length_bytesOf]), Vector.length_toList]
  rfl

theorem length_runBytes (r : RunSet) : (runBytes r).length = r.serializedSize := by
  rw [runBytes, List.length_append, length_bytesOf,
    length_flatMap_const _ 4 (by simp [length_bytesOf]), Array.length_toList]
  rfl

theorem Fits.length_payload {flagged : Bool} {s : Slot}
    (fits : Fits flagged s.declared s.container) :
    s.container.payload.bytes.length = s.payloadSize flagged := by
  obtain ⟨key, declared, c⟩ := s
  obtain ⟨storable, rfl, counted⟩ := fits
  cases c with
  | runs r => exact length_runBytes r
  | array s =>
    have same : s.length = declared := counted rfl
    have short : declared ≤ 4096 := same ▸ storable.2
    rw [payload_array s storable.2, length_valueBytes]
    change 2 * s.length = if declared ≤ 4096 then 2 * declared else 8192
    rw [if_pos short, same]
  | bits b =>
    have same : b.cardinality = declared := counted rfl
    have dense : 4096 < declared := same ▸ storable.1
    rw [payload_bits b storable.1, length_wordBytes]
    exact (if_neg (Nat.not_le.mpr dense)).symm

theorem Announced.length_preamble {count : Nat} {flags : Option (Array UInt8)}
    (announced : Announced count flags) :
    (bytesOf 4 (cookieFor count flags) ++ countBytes count flags).length =
      if flags.isSome then 4 + (count + 7) / 8 else 8 := by
  rw [List.length_append, length_bytesOf]
  cases flags with
  | none => rfl
  | some bits => rw [countBytes, Array.length_toList, announced.size bits rfl]; rfl

/-- The preamble, the descriptors, and the positions where they are written. -/
theorem headerSize_eq (count : Nat) (hasRuns : Bool) :
    headerSize count hasRuns = (if hasRuns then 4 + (count + 7) / 8 else 8) + 4 * count +
      4 * if writesOffsets count hasRuns then count else 0 := by
  rw [headerSize, writesOffsets]
  cases hasRuns with
  | true =>
    simp only [Bool.not_true, Bool.false_or, decide_eq_true_eq, if_true]
    split
    · rfl
    · rfl
  | false =>
    simp only [Bool.not_false, Bool.true_or, if_true, Bool.false_eq_true, if_false]
    omega

theorem Form.length_header (f : Form) :
    f.header.length = headerSize f.slots.length f.flags.isSome := by
  rw [header, List.length_append, List.length_append, f.announced.length_preamble,
    length_flatMap_const Slot.descriptor 4 (by simp [Slot.descriptor, length_bytesOf]),
    length_flatMap_const (fun p : UInt32 => bytesOf 4 p.toNat) 4 (by simp [length_bytesOf]),
    f.placed, headerSize_eq]

/-- A header for so many containers, then the payloads. -/
theorem Form.length_bytes (f : Form) : f.bytes.length =
    headerSize f.slots.length f.flags.isSome +
      (f.slots.zipIdx.map fun s => s.1.payloadSize (isFlagged f.flags s.2)).sum := by
  have sizes : f.slots.map (fun s => s.container.payload.bytes.length) =
      f.slots.zipIdx.map fun s => s.1.payloadSize (isFlagged f.flags s.2) := by
    conv_lhs => rw [← List.zipIdx_map_fst 0 f.slots, List.map_map]
    exact List.map_congr_left fun s member => (f.fits s member).length_payload
  rw [bytes, List.length_append, f.length_header, List.length_flatMap, sizes]

end Roaring.Codec
