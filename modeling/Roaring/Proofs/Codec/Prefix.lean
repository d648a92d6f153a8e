import Roaring.Proofs.Codec.Form

/-! The reader takes exactly the forms, and each of them from its own bytes alone. The only bytes
refused are those whose first four announce no form and those that announce more containers than
there are keys; anything else is read or ends too early. -/
namespace Roaring.Codec

def cookieOf (bytes : List UInt8) : Nat := numberOf (bytes.take 4)

def countOf (bytes : List UInt8) : Nat := numberOf ((bytes.drop 4).take 4)

def announcedCount (bytes : List UInt8) : Nat :=
  if cookieOf bytes = plainCookie then countOf bytes else cookieOf bytes / 65536 + 1

theorem numberOf_take_lt (bytes : List UInt8) (width : Nat) :
    numberOf (bytes.take width) < 256 ^ width := by
  refine Nat.lt_of_lt_of_le (numberOf_lt _) (Nat.pow_le_pow_right (by decide) ?_)
  exact List.length_take_le width bytes

theorem not_ranOut_of_refused {e : Error} (refused : Refused e) : ¬RanOut e := by
  rintro ⟨part, rfl⟩
  rcases refused with ⟨cookie, same⟩ | ⟨count, same⟩
  · contradiction
  · contradiction

theorem takeNumber_eq (part : Part) (width : Nat) (bytes : List UInt8) :
    takeNumber part width bytes =
      if width ≤ bytes.length then .ok (numberOf (bytes.take width), bytes.drop width)
      else .error (.stream part.name .truncated) := by
  rw [takeNumber, bind_pure_eq_map, takeBytes, List.length_take]
  split
  · rename_i whole
    rw [if_pos (Nat.le_trans (Nat.le_of_eq whole.symm) (Nat.min_le_right _ _))]
    rfl
  · rename_i short
    rw [if_neg fun whole => short (Nat.min_eq_left whole)]
    rfl

/-- What a reader refuses is refused by its first step, if the later ones refuse nothing. -/
theorem bind_refused_iff {α β : Type} {refused : Error → Prop} {reader : Reader α}
    {form : Grammar α} {next : α → Reader β} {forms : α → Grammar β}
    (first : Takes refused reader form)
    (second : ∀ front a, form front a → Takes (fun _ => False) (next a) (forms a))
    (bytes : List UInt8) {e : Error} (stop : ¬RanOut e) :
    (reader >>= next) bytes = .error e ↔ reader bytes = .error e := by
  constructor
  · intro failed
    cases taken : reader bytes with
    | error e' =>
      rw [bind_of_error taken] at failed
      exact congrArg Except.error (Except.error.inj failed)
    | ok p =>
      obtain ⟨front, -, formed⟩ := first.sound taken
      rw [bind_of_ok taken] at failed
      rcases (second front p.1 formed).fails failed with ranOut | ⟨none, -⟩
      · exact absurd ranOut stop
      · exact none.elim
  · exact bind_of_error

theorem takeBitmap_refused_iff (bytes : List UInt8) {e : Error} (stop : ¬RanOut e) :
    takeBitmap bytes = .error e ↔ takePreamble bytes = .error e :=
  bind_refused_iff takes_preamble (fun _ p _ => (takes_many takes_descriptor p.1).bind
    fun _ descriptors described => takes_body p.2 descriptors.toList described.2.2 p.1
      (writesOffsets p.1 p.2.isSome)) bytes stop

theorem takeNumber_short (part : Part) {width : Nat} {bytes : List UInt8}
    (short : ¬width ≤ bytes.length) :
    takeNumber part width bytes = .error (.stream part.name .truncated) := by
  rw [takeNumber_eq, if_neg short]

theorem takeNumber_enough (part : Part) {width : Nat} {bytes : List UInt8}
    (enough : width ≤ bytes.length) :
    takeNumber part width bytes = .ok (numberOf (bytes.take width), bytes.drop width) := by
  rw [takeNumber_eq, if_pos enough]

theorem count_refused_iff (bytes : List UInt8) {e : Error} (stop : ¬RanOut e) :
    (do
      let count ← takeNumber .containerCount 4
      if 65536 < count then throw (.invalidContainerCount count)
      return (count, none) : Reader (Nat × Option (Array UInt8))) bytes = .error e ↔
        4 ≤ bytes.length ∧ 65536 < numberOf (bytes.take 4) ∧
          .invalidContainerCount (numberOf (bytes.take 4)) = e := by
  by_cases enough : 4 ≤ bytes.length
  · rw [bind_of_ok (takeNumber_enough .containerCount enough)]
    by_cases many : 65536 < numberOf (bytes.take 4)
    · rw [if_pos many]
      exact ⟨fun same => ⟨enough, many, Except.error.inj same⟩, fun both => congrArg _ both.2.2⟩
    · rw [if_neg many]
      exact iff_of_false nofun fun both => many both.2.1
  · rw [bind_of_error (takeNumber_short .containerCount enough)]
    refine iff_of_false ?_ fun both => enough both.1
    intro ranOut
    exact stop ⟨.containerCount, (Except.error.inj ranOut).symm⟩

/-- What is refused, by its first bytes. -/
theorem takePreamble_refused_iff (bytes : List UInt8) {e : Error} (stop : ¬RanOut e) :
    takePreamble bytes = .error e ↔
      (4 ≤ bytes.length ∧ cookieOf bytes ≠ plainCookie ∧ cookieOf bytes % 65536 ≠ runCookie ∧
        .invalidCookie (cookieOf bytes).toUInt32 = e) ∨
      (8 ≤ bytes.length ∧ cookieOf bytes = plainCookie ∧ 65536 < countOf bytes ∧
        .invalidContainerCount (countOf bytes) = e) := by
  by_cases enough : 4 ≤ bytes.length
  · have taken : takeNumber .cookie 4 bytes = .ok (cookieOf bytes, bytes.drop 4) :=
      takeNumber_enough .cookie enough
    have small : cookieOf bytes < 256 ^ 4 := numberOf_take_lt bytes 4
    rw [takePreamble, bind_of_ok taken]
    by_cases plain : cookieOf bytes = plainCookie
    · have length : 4 ≤ (bytes.drop 4).length ↔ 8 ≤ bytes.length := by
        rw [List.length_drop]
        omega
      rw [if_pos plain, count_refused_iff _ stop, ← countOf]
      simp only [length, plain, ne_eq, not_true_eq_false, true_and, false_and, and_false, false_or]
    · rw [if_neg plain]
      by_cases flagged : cookieOf bytes % 65536 = runCookie
      · rw [if_pos flagged]
        refine iff_of_false ?_ fun either => either.elim (fun all => all.2.2.1 flagged)
          fun all => plain all.2.1
        intro failed
        have flags : Takes (fun _ => False) _ _ :=
          takes_flags (cookieOf bytes / 65536 + 1) (Nat.succ_pos _) (by omega)
        rcases flags.fails failed with ranOut | ⟨none, -⟩
        · exact stop ranOut
        · exact none
      · rw [if_neg flagged]
        constructor
        · intro same
          exact Or.inl ⟨enough, plain, flagged, Except.error.inj same⟩
        · rintro (⟨-, -, -, rfl⟩ | ⟨-, same, -⟩)
          · rfl
          · exact absurd same plain
  · rw [takePreamble, bind_of_error (takeNumber_short .cookie enough)]
    refine iff_of_false ?_ ?_
    · intro ranOut
      exact stop ⟨.cookie, (Except.error.inj ranOut).symm⟩
    · omega

/-! What a form says of its own first bytes. -/

theorem cookieOf_bytesOf (n : Nat) (rest : List UInt8) (small : n < 256 ^ 4) :
    cookieOf (bytesOf 4 n ++ rest) = n := by
  rw [cookieOf, List.take_left' (length_bytesOf 4 n), numberOf_bytesOf, Nat.mod_eq_of_lt small]

theorem countOf_bytesOf (cookie n : Nat) (rest : List UInt8) (small : n < 256 ^ 4) :
    countOf (bytesOf 4 cookie ++ (bytesOf 4 n ++ rest)) = n := by
  rw [countOf, List.drop_left' (length_bytesOf 4 cookie), List.take_left' (length_bytesOf 4 n),
    numberOf_bytesOf, Nat.mod_eq_of_lt small]

/-- The first bytes of a form announce its flags and its containers. -/
theorem Form.announces (f : Form) (rest : List UInt8) :
    f.flags.isSome = (cookieOf (f.bytes ++ rest) != plainCookie) ∧
      f.slots.length = announcedCount (f.bytes ++ rest) := by
  have few := f.announced.few
  have cookie : cookieOf (f.bytes ++ rest) = cookieFor f.slots.length f.flags := by
    simp only [Form.bytes, Form.header, List.append_assoc]
    exact cookieOf_bytesOf _ _ f.announced.cookieFor_lt
  rw [announcedCount, cookie]
  cases flags : f.flags with
  | none =>
    refine ⟨rfl, ?_⟩
    simp only [cookieFor, if_true, Form.bytes, Form.header, flags, countBytes, List.append_assoc]
    exact (countOf_bytesOf _ _ _ (Nat.lt_of_le_of_lt few (by decide))).symm
  | some bits =>
    obtain ⟨-, count, other⟩ :=
      cookieFor_flags f.slots.length bits (f.announced.some (flags ▸ rfl))
    rw [if_neg other, count]
    exact ⟨by simpa using other, rfl⟩

end Roaring.Codec

namespace Roaring.Bitmap

open Codec

/-- Which bytes are refused, which run out, and what is read of the others: a form, from its own
bytes alone, whose length follows from the first bytes and what each container announces. -/
theorem deserialize_exact (bytes : List UInt8) :
    (∀ cookie, deserialize bytes = .error (.invalidCookie cookie) ↔
      4 ≤ bytes.length ∧ cookieOf bytes = cookie.toNat ∧ cookieOf bytes ≠ plainCookie ∧
        cookieOf bytes % 65536 ≠ runCookie) ∧
    (∀ count, deserialize bytes = .error (.invalidContainerCount count) ↔
      8 ≤ bytes.length ∧ cookieOf bytes = plainCookie ∧ countOf bytes = count ∧ 65536 < count) ∧
    (∀ e, deserialize bytes = .error e → Refused e ∨ RanOut e) ∧
    (∀ b rest, deserialize bytes = .ok (b, rest) ↔
      ∃ f : Form, f.bitmap = b ∧ f.bytes ++ rest = bytes) ∧
    ∀ (f : Form) rest, f.bytes ++ rest = bytes →
      f.flags.isSome = (cookieOf bytes != plainCookie) ∧
      f.slots.length = announcedCount bytes ∧
      f.bytes.length = headerSize f.slots.length f.flags.isSome +
        (f.slots.zipIdx.map fun s => s.1.payloadSize (isFlagged f.flags s.2)).sum ∧
      (∀ other, deserialize (f.bytes ++ other) = .ok (f.bitmap, other)) ∧
      ∀ m < f.bytes.length, ∃ e, deserialize (bytes.take m) = .error e ∧ RanOut e := by
  have refusals (e : Error) (refused : Refused e) :=
    (takeBitmap_refused_iff bytes (not_ranOut_of_refused refused)).trans
      (takePreamble_refused_iff bytes (not_ranOut_of_refused refused))
  refine ⟨fun cookie => ?_, fun count => ?_, fun e failed => ?_, fun b rest => ⟨fun done => ?_, ?_⟩,
    ?_⟩
  · refine (refusals _ (Or.inl ⟨cookie, rfl⟩)).trans ?_
    have small : cookieOf bytes < UInt32.size := numberOf_take_lt bytes 4
    have named : (cookieOf bytes).toUInt32 = cookie ↔ cookieOf bytes = cookie.toNat := by
      rw [← UInt32.toNat_inj, Nat.toUInt32_eq, UInt32.toNat_ofNat_of_lt' small]
    simp only [Error.invalidCookie.injEq, named, reduceCtorEq, and_false, or_false]
    exact and_congr_right fun _ => and_rotate.symm
  · refine (refusals _ (Or.inr ⟨count, rfl⟩)).trans ?_
    simp only [Error.invalidContainerCount.injEq, reduceCtorEq, and_false, false_or]
    refine and_congr_right fun _ => and_congr_right fun _ => ?_
    constructor
    · rintro ⟨many, rfl⟩
      exact ⟨rfl, many⟩
    · rintro ⟨rfl, many⟩
      exact ⟨many, rfl⟩
  · exact (takes_bitmap.fails failed).symm.imp And.left id
  · obtain ⟨front, parts, f, rfl, same⟩ := takes_bitmap.sound done
    exact ⟨f, same, parts.symm⟩
  · rintro ⟨f, rfl, rfl⟩
    exact takes_bitmap.whole ⟨f, rfl, rfl⟩ rest
  · rintro f rest rfl
    obtain ⟨flags, count⟩ := f.announces rest
    refine ⟨flags, count, f.length_bytes, takes_bitmap.whole ⟨f, rfl, rfl⟩, fun m less => ?_⟩
    rw [List.take_append_of_le_length (Nat.le_of_lt less)]
    exact takes_bitmap.short ⟨f, rfl, rfl⟩ m less

theorem deserialize_exact_padded :
    deserialize [0x3b, 0x30, 0, 0, 0xff, 0, 0, 0, 0, 1, 0, 0, 0, 0, 0, 7] =
        .ok (⟨#[⟨0, .runs ⟨#[⟨0, 0⟩]⟩⟩]⟩, [7]) ∧
      ∀ m < 15, ∃ e,
        deserialize ([0x3b, 0x30, 0, 0, 0xff, 0, 0, 0, 0, 1, 0, 0, 0, 0, 0, 7].take m) =
          .error e ∧ RanOut e := by
  have all := deserialize_exact [0x3b, 0x30, 0, 0, 0xff, 0, 0, 0, 0, 1, 0, 0, 0, 0, 0, 7]
  have done : deserialize [0x3b, 0x30, 0, 0, 0xff, 0, 0, 0, 0, 1, 0, 0, 0, 0, 0, 7] =
      .ok (⟨#[⟨0, .runs ⟨#[⟨0, 0⟩]⟩⟩]⟩, [7]) := by decide
  obtain ⟨f, -, parts⟩ := (all.2.2.2.1 _ _).mp done
  have length : f.bytes.length = 15 := by
    have total := congrArg List.length parts
    rw [List.length_append] at total
    exact Nat.succ.inj total
  exact ⟨done, length ▸ (all.2.2.2.2 f _ parts).2.2.2.2⟩

end Roaring.Bitmap
