import Roaring.Codec.Reader
import Roaring.Proofs.Word
import Mathlib.Algebra.Group.Nat.Defs

/-! Readers one step at a time, numbers as bytes, and what the header tells of a container: its
key and cardinality, and the flag of runs. -/
namespace Roaring.Codec

theorem bind_of_ok {α β : Type} {reader : Reader α} {next : α → Reader β} {unread left : List UInt8}
    {a : α} (done : reader unread = .ok (a, left)) : (reader >>= next) unread = next a left := by
  change (reader unread >>= fun p => next p.1 p.2) = _
  rw [done]
  rfl

theorem bind_of_error {α β : Type} {reader : Reader α} {next : α → Reader β} {unread : List UInt8}
    {e : Error} (failed : reader unread = .error e) : (reader >>= next) unread = .error e := by
  change (reader unread >>= fun p => next p.1 p.2) = _
  rw [failed]
  rfl

theorem ok_of_bind {α β : Type} {reader : Reader α} {next : α → Reader β}
    {unread left : List UInt8} {b : β} (done : (reader >>= next) unread = .ok (b, left)) :
    ∃ a mid, reader unread = .ok (a, mid) ∧ next a mid = .ok (b, left) := by
  change (reader unread >>= fun p => next p.1 p.2) = _ at done
  cases taken : reader unread with
  | error e =>
    rw [taken] at done
    contradiction
  | ok p =>
    rw [taken] at done
    exact ⟨p.1, p.2, rfl, done⟩

theorem ok_of_pure {α : Type} {a b : α} {unread left : List UInt8}
    (done : (pure a : Reader α) unread = .ok (b, left)) : a = b ∧ unread = left := by
  have same := Except.ok.inj done
  exact ⟨congrArg Prod.fst same, congrArg Prod.snd same⟩

theorem bind_pure_eq_map {α β : Type} (reader : Reader α) (f : α → β) (unread : List UInt8) :
    (reader >>= fun a => pure (f a)) unread = (reader unread).map fun p => (f p.1, p.2) := by
  change (reader unread >>= fun p => .ok (f p.1, p.2)) = _
  cases reader unread with
  | error e => rfl
  | ok p => rfl

theorem takeBytes_append (part : Part) (bytes rest : List UInt8) (count : Nat)
    (length : bytes.length = count) : takeBytes part count (bytes ++ rest) = .ok (bytes, rest) := by
  subst length
  rw [takeBytes, List.take_left, if_pos rfl, List.drop_left]

theorem numberOf_bytesOf (width n : Nat) : numberOf (bytesOf width n) = n % 256 ^ width := by
  induction width generalizing n with
  | zero => simp [bytesOf, numberOf, Nat.mod_one]
  | succ width ih =>
    rw [bytesOf, numberOf, ih, Nat.pow_succ, Nat.mul_comm (256 ^ width), Nat.mod_mul]
    simp

theorem numberOf_lt (bytes : List UInt8) : numberOf bytes < 256 ^ bytes.length := by
  induction bytes with
  | nil => exact Nat.zero_lt_one
  | cons b bytes ih =>
    have low := b.toNat_lt
    rw [numberOf, List.length_cons, Nat.pow_succ]
    omega

theorem bytesOf_numberOf (bytes : List UInt8) : bytesOf bytes.length (numberOf bytes) = bytes := by
  induction bytes with
  | nil => rfl
  | cons b bytes ih =>
    have low := b.toNat_lt
    have rest : (b.toNat + 256 * numberOf bytes) / 256 = numberOf bytes := by omega
    have first : (b.toNat + 256 * numberOf bytes).toUInt8 = b := by
      apply UInt8.toNat_inj.mp
      simp
    rw [List.length_cons, numberOf, bytesOf, rest, ih, first]

/-- Only what fits the width is written. -/
theorem bytesOf_mod (width n : Nat) : bytesOf width (n % 256 ^ width) = bytesOf width n := by
  have back := bytesOf_numberOf (bytesOf width n)
  rwa [length_bytesOf, numberOf_bytesOf] at back

/-- The containers that the format can tell apart, whatever they hold: a list is neither empty nor
too long, bits are declared dense, and runs are few enough to be counted. -/
def Storable : Container → Prop
  | .array s => 0 < s.length ∧ s.length ≤ ArraySet.maxLength
  | .bits b => ArraySet.maxLength < b.cardinality ∧ b.cardinality ≤ 65536
  | .runs r => r.countRuns < 65536

/-- The key and the cardinality that a descriptor stands for. An empty container and one with all
values have the same descriptor, which is read as that of all values. -/
def described (e : Entry) : UInt16 × Nat :=
  (e.key, (e.container.cardinality + 65535) % 65536 + 1)

/-- A declared cardinality, which is at least one and at most that of the domain. -/
def Declared (descriptor : UInt16 × Nat) : Prop := 0 < descriptor.2 ∧ descriptor.2 ≤ 65536

theorem declared_described (e : Entry) : Declared (described e) :=
  ⟨Nat.succ_pos _, Nat.mod_lt _ (by decide)⟩

/-! Flags. Bit `k` of a flag byte is that of the `k`-th of its eight flags. -/

theorem eightBits_test : ∀ flag₀ flag₁ flag₂ flag₃ flag₄ flag₅ flag₆ flag₇ : Bool, ∀ k : Fin 8,
    let bits := #[flag₀, flag₁, flag₂, flag₃, flag₄, flag₅, flag₆, flag₇]
    ((List.range 8).foldl (fun (byte : UInt8) j =>
      if bits.getD j false then byte ||| (1 <<< j.toUInt8) else byte) 0 &&&
        (1 <<< k.val.toUInt8) != 0) = bits.getD k false := by
  decide +kernel

theorem flagByte_test (flags : Array Bool) (index k : Nat) (inside : k < 8) :
    (flagByte flags index &&& (1 <<< k.toUInt8) != 0) = flags.getD (8 * index + k) false := by
  let flag := fun j => flags.getD (8 * index + j) false
  have bits : ∀ j < 8, #[flag 0, flag 1, flag 2, flag 3, flag 4, flag 5, flag 6, flag 7].getD j false
      = flag j := by
    intro j low
    match j with
    | 0 | 1 | 2 | 3 | 4 | 5 | 6 | 7 => rfl
  have test := eightBits_test (flag 0) (flag 1) (flag 2) (flag 3) (flag 4) (flag 5) (flag 6)
    (flag 7) ⟨k, inside⟩
  simp only [bits k inside] at test
  rw [← show flag k = flags.getD (8 * index + k) false from rfl, ← test]
  rfl

theorem isFlagged_flagBytes (flags : Array Bool) (i : Nat) (inside : i < flags.size) :
    isFlagged (some (flagBytes flags).toArray) i = flags[i] := by
  have byte : (flagBytes flags).toArray.getD (i / 8) 0 = flagByte flags (i / 8) := by
    have low : i / 8 < (flags.size + 7) / 8 := by omega
    simp [flagBytes, low]
  rw [isFlagged, Option.any_some, byte, flagByte_test flags _ _ (Nat.mod_lt i (by decide)),
    Nat.div_add_mod]
  simp [inside]

theorem length_flagBytes (flags : Array Bool) : (flagBytes flags).length = (flags.size + 7) / 8 := by
  rw [flagBytes, List.length_map, List.length_range]

end Roaring.Codec
