import Roaring.Proofs.Codec.Reader

/-! Readers and what they are meant to take. A grammar relates byte strings to the items that they
stand for. A reader of a grammar takes from the front of any bytes what the grammar admits there and
leaves the rest alone; it follows that a byte string too short for its item makes the reader run out
of bytes. Readers in sequence are readers of the sequence of their grammars. -/
namespace Roaring.Codec

/-- The bytes ended before a part was complete. -/
def RanOut (e : Error) : Prop := ∃ part : Part, e = .stream part.name .truncated

/-- Byte strings, each with an item that it stands for. -/
abbrev Grammar (α : Type) := List UInt8 → α → Prop

/-- The reader takes what the grammar admits. A failure other than for lack of bytes is one of those
that are `refused`, and no bytes that follow can mend it. -/
structure Takes {α : Type} (refused : Error → Prop) (reader : Reader α) (form : Grammar α) :
    Prop where
  sound : ∀ {bytes rest a}, reader bytes = .ok (a, rest) →
    ∃ front, bytes = front ++ rest ∧ form front a
  whole : ∀ {front a}, form front a → ∀ rest, reader (front ++ rest) = .ok (a, rest)
  fails : ∀ {bytes e}, reader bytes = .error e →
    RanOut e ∨ refused e ∧ ∀ rest, reader (bytes ++ rest) = .error e

variable {α β : Type} {refused : Error → Prop}

namespace Takes

variable {reader : Reader α} {form : Grammar α}

theorem congr {form' : Grammar α} (takes : Takes refused reader form)
    (same : ∀ bytes a, form bytes a ↔ form' bytes a) : Takes refused reader form' := by
  refine ⟨fun done => ?_, fun formed rest => takes.whole ((same _ _).mpr formed) rest, takes.fails⟩
  obtain ⟨front, parts, formed⟩ := takes.sound done
  exact ⟨front, parts, (same _ _).mp formed⟩

theorem extend (takes : Takes refused reader form) {bytes left : List UInt8} {a : α}
    (done : reader bytes = .ok (a, left)) (rest : List UInt8) :
    reader (bytes ++ rest) = .ok (a, left ++ rest) := by
  obtain ⟨front, rfl, formed⟩ := takes.sound done
  rw [List.append_assoc]
  exact takes.whole formed _

/-- Of a byte string that stands for an item, no shorter front will do. -/
theorem short (takes : Takes refused reader form) {front : List UInt8} {a : α}
    (formed : form front a) (m : Nat) (less : m < front.length) :
    ∃ e, reader (front.take m) = .error e ∧ RanOut e := by
  have complete := takes.whole formed []
  rw [List.append_nil] at complete
  cases cut : reader (front.take m) with
  | ok p =>
    have longer := takes.extend cut (front.drop m)
    rw [List.take_append_drop, complete] at longer
    have left : [] = p.2 ++ front.drop m := congrArg Prod.snd (Except.ok.inj longer)
    have none : front.drop m = [] := (List.append_eq_nil_iff.mp left.symm).2
    exact absurd (List.drop_eq_nil_iff.mp none) (Nat.not_le.mpr less)
  | error e =>
    rcases takes.fails cut with ranOut | ⟨-, final⟩
    · exact ⟨e, rfl, ranOut⟩
    · have longer := final (front.drop m)
      rw [List.take_append_drop, complete] at longer
      contradiction

/-- The second grammar may depend on the item of the first. -/
theorem bind {next : α → Reader β} {forms : α → Grammar β} (first : Takes refused reader form)
    (second : ∀ front a, form front a → Takes refused (next a) (forms a)) :
    Takes refused (reader >>= next) fun bytes b =>
      ∃ front back a, bytes = front ++ back ∧ form front a ∧ forms a back b := by
  constructor
  · intro bytes rest b done
    obtain ⟨a, mid, taken, later⟩ := ok_of_bind done
    obtain ⟨front, rfl, formed⟩ := first.sound taken
    obtain ⟨back, rfl, formedBack⟩ := (second front a formed).sound later
    exact ⟨front ++ back, (List.append_assoc _ _ _).symm, front, back, a, rfl, formed, formedBack⟩
  · rintro bytes b ⟨front, back, a, rfl, formed, formedBack⟩ rest
    rw [List.append_assoc, bind_of_ok (first.whole formed _)]
    exact (second front a formed).whole formedBack rest
  · intro bytes e failed
    cases taken : reader bytes with
    | error e' =>
      rw [bind_of_error taken] at failed
      obtain rfl := Except.error.inj failed
      exact (first.fails taken).imp id fun both => ⟨both.1, fun rest => bind_of_error (both.2 rest)⟩
    | ok p =>
      obtain ⟨front, parts, formed⟩ := first.sound taken
      rw [bind_of_ok taken] at failed
      refine ((second front p.1 formed).fails failed).imp id fun both => ⟨both.1, fun rest => ?_⟩
      rw [bind_of_ok (first.extend taken rest)]
      exact both.2 rest

end Takes

theorem takes_pure (a : α) :
    Takes refused (pure a : Reader α) fun bytes b => bytes = [] ∧ a = b := by
  constructor
  · intro bytes rest b done
    obtain ⟨same, rfl⟩ := ok_of_pure done
    exact ⟨[], rfl, rfl, same⟩
  · rintro bytes b ⟨rfl, rfl⟩ rest
    rfl
  · intro bytes e failed
    contradiction

/-- What follows the reader only rearranges its item. -/
theorem Takes.map {reader : Reader α} {form : Grammar α} (takes : Takes refused reader form)
    (f : α → β) :
    Takes refused (reader >>= fun a => pure (f a)) fun bytes b => ∃ a, form bytes a ∧ f a = b := by
  refine (takes.bind fun _ a _ => takes_pure (f a)).congr fun bytes b => ?_
  constructor
  · rintro ⟨front, back, a, rfl, formed, rfl, same⟩
    exact ⟨a, (List.append_nil front).symm ▸ formed, same⟩
  · rintro ⟨a, formed, same⟩
    exact ⟨bytes, [], a, (List.append_nil bytes).symm, formed, rfl, same⟩

theorem takes_refused {e : Error} (stop : refused e) :
    Takes refused (throw e : Reader α) fun _ _ => False := by
  constructor
  · intro bytes rest a done
    contradiction
  · exact fun none _ => none.elim
  · intro bytes e' failed
    obtain rfl : e = e' := Except.error.inj failed
    exact Or.inr ⟨stop, fun _ => rfl⟩

theorem takes_bytes (part : Part) (count : Nat) :
    Takes refused (takeBytes part count) fun bytes a => bytes = a ∧ a.length = count := by
  constructor
  · intro bytes rest a done
    rw [takeBytes] at done
    split at done
    · rename_i length
      obtain ⟨rfl, rfl⟩ := Prod.mk.inj (Except.ok.inj done)
      exact ⟨_, (List.take_append_drop count bytes).symm, rfl, length⟩
    · contradiction
  · rintro front a ⟨rfl, length⟩ rest
    exact takeBytes_append part front rest count length
  · intro bytes e failed
    rw [takeBytes] at failed
    split at failed
    · contradiction
    · exact Or.inl ⟨part, (Except.error.inj failed).symm⟩

theorem takes_number (part : Part) (width : Nat) :
    Takes refused (takeNumber part width) fun bytes n =>
      bytes = bytesOf width n ∧ n < 256 ^ width := by
  refine ((takes_bytes part width).map numberOf).congr fun bytes n => ?_
  constructor
  · rintro ⟨a, ⟨rfl, rfl⟩, rfl⟩
    exact ⟨(bytesOf_numberOf bytes).symm, numberOf_lt bytes⟩
  · rintro ⟨rfl, small⟩
    exact ⟨_, ⟨rfl, length_bytesOf width n⟩, by rw [numberOf_bytesOf, Nat.mod_eq_of_lt small]⟩

theorem takes_value (part : Part) :
    Takes refused (return (← takeNumber part 2).toUInt16) fun bytes v =>
      bytes = bytesOf 2 v.toNat := by
  refine ((takes_number part 2).map Nat.toUInt16).congr fun bytes v => ?_
  constructor
  · rintro ⟨n, ⟨rfl, small⟩, rfl⟩
    rw [toNat_toUInt16 small]
  · rintro rfl
    exact ⟨v.toNat, ⟨rfl, v.toNat_lt⟩, UInt16.ofNat_toNat⟩

theorem takes_word (part : Part) :
    Takes refused (return (← takeNumber part 8).toUInt64) fun bytes (w : Word) =>
      bytes = bytesOf 8 w.toNat := by
  refine ((takes_number part 8).map Nat.toUInt64).congr fun bytes w => ?_
  constructor
  · rintro ⟨n, ⟨rfl, small⟩, rfl⟩
    rw [Nat.toUInt64_eq, UInt64.toNat_ofNat_of_lt' small]
  · rintro rfl
    exact ⟨w.toNat, ⟨rfl, w.toNat_lt⟩, UInt64.ofNat_toNat⟩

theorem takeOnto_succ (item : Reader α) (count : Nat) (out : Array α) :
    takeOnto item (count + 1) out = (item >>= fun a => takeOnto item count (out.push a)) := by
  funext unread
  change takeOnto item (count + 1) out unread = (item unread >>= _)
  rw [takeOnto]
  cases item unread with
  | error e => rfl
  | ok p => rfl

theorem takes_onto {item : Reader α} {write : α → List UInt8} {good : α → Prop}
    (takes : Takes refused item fun bytes a => bytes = write a ∧ good a) (count : Nat)
    (out : Array α) :
    Takes refused (takeOnto item count out) fun bytes xs =>
      ∃ added, xs.toList = out.toList ++ added ∧ added.length = count ∧
        bytes = added.flatMap write ∧ ∀ a ∈ added, good a := by
  induction count generalizing out with
  | zero =>
    refine (takes_pure out).congr fun bytes xs => ?_
    constructor
    · rintro ⟨rfl, rfl⟩
      exact ⟨[], by simp⟩
    · rintro ⟨added, parts, none, rfl, -⟩
      obtain rfl := List.length_eq_zero_iff.mp none
      exact ⟨rfl, Array.toList_inj.mp (by simp [parts])⟩
  | succ count ih =>
    rw [takeOnto_succ]
    refine (takes.bind fun _ a _ => ih (out.push a)).congr fun bytes xs => ?_
    constructor
    · rintro ⟨front, back, a, rfl, ⟨rfl, first⟩, added, parts, length, rfl, all⟩
      exact ⟨a :: added, by simp [parts], by simp [length], rfl,
        List.forall_mem_cons.mpr ⟨first, all⟩⟩
    · rintro ⟨added, parts, length, rfl, all⟩
      obtain ⟨a, added, rfl⟩ := List.exists_cons_of_length_eq_add_one length
      obtain ⟨first, later⟩ := List.forall_mem_cons.mp all
      exact ⟨write a, added.flatMap write, a, rfl, ⟨rfl, first⟩, added, by simp [parts],
        Nat.succ.inj length, rfl, later⟩

/-- Items of one kind, one behind the other. -/
theorem takes_many {item : Reader α} {write : α → List UInt8} {good : α → Prop}
    (takes : Takes refused item fun bytes a => bytes = write a ∧ good a) (count : Nat) :
    Takes refused (takeMany count item) fun bytes xs =>
      bytes = xs.toList.flatMap write ∧ xs.size = count ∧ ∀ a ∈ xs.toList, good a := by
  refine (takes_onto takes count #[]).congr fun bytes xs => ?_
  constructor
  · rintro ⟨added, parts, rfl, rfl, all⟩
    rw [Array.toList_empty, List.nil_append] at parts
    subst parts
    exact ⟨rfl, Array.length_toList.symm, all⟩
  · rintro ⟨rfl, rfl, all⟩
    exact ⟨xs.toList, rfl, Array.length_toList, rfl, all⟩

end Roaring.Codec
