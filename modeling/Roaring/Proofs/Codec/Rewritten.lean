import Roaring.Proofs.Bitmap.Sound
import Roaring.Proofs.Codec.Accepted
import Roaring.Proofs.Codec.RoundTrip

/-! Writing what was handed out, after any calls. Containers of no runs are written and read back like
all others. But once such a container is turned into a list, it is one of no values, and for a list
the header has only room for the cardinality less one: the empty list is announced as a full
container, which its payload is not. -/
namespace Roaring.Bitmap

open Codec

theorem canonical_of_storable {c : Container} (storable : Storable c) (formed : c.WellFormed) :
    c.Canonical := by
  refine ⟨formed, ?_⟩
  rintro b rfl
  exact storable.1

theorem sound_of_accepted {bytes : List UInt8} {b : Bitmap}
    (accepted : deserializeValidated bytes = .ok (.ok b)) : Sound .canonical b.entries.toList := by
  obtain ⟨read, ascending, formed⟩ := (accepted_iff bytes b).mp accepted
  obtain ⟨rest, taken⟩ := of_deserializeSlice read
  refine ⟨ascending, fun e member => ?_⟩
  exact canonical_of_storable ((takeBitmap_taken taken).2 e member)
    (formed e (Array.mem_toList_iff.mp member))

theorem accepted_serialize {b : Bitmap} (sound : Sound .canonical b.entries.toList)
    (some : ∀ e ∈ b.entries, e.container ≠ .empty) :
    deserializeValidated b.serialize = .ok (.ok b) := by
  have whole := takeBitmap_written b (containerCount_le sound.ascending) (fun e member =>
    storable_of_ne_empty (sound.good e member) (some e (Array.mem_toList_iff.mp member))) []
  rw [List.append_nil] at whole
  refine (accepted_iff _ b).mpr ⟨?_, sound.ascending, fun e member => ?_⟩
  · rw [deserializeSlice, deserialize, whole]
    rfl
  · exact (sound.good e (Array.mem_toList_iff.mpr member)).formed

/-- Where an empty list was written, a full container is read, if anything. -/
theorem full_of_empty {b c : Bitmap} (few : b.containerCount ≤ 65536)
    (read : deserializeSlice b.serialize = .ok c) {e : Entry} (member : e ∈ b.entries)
    (empty : e.container = .empty) :
    ∃ d ∈ c.entries, d.key = e.key ∧ d.container.cardinality = 65536 := by
  obtain ⟨rest, taken⟩ := of_deserializeSlice read
  have written := takeBitmap_serialize b few []
  rw [List.append_nil, taken] at written
  cases payloads : takePayloads b.runFlags (b.entries.toList.map described) 0 #[]
      (b.entries.toList.flatMap (fun e => e.container.payload.bytes) ++ []) with
  | error fault =>
    rw [payloads] at written
    contradiction
  | ok p =>
    rw [payloads] at written
    have same : c = ⟨p.1⟩ := congrArg Prod.fst (Except.ok.inj written)
    obtain ⟨added, parts, filled⟩ := takePayloads_taken
      (List.forall_mem_map.mpr fun e _ => declared_described e) payloads
    rw [Array.toList_empty, List.nil_append] at parts
    obtain ⟨i, inside, atIndex⟩ := Array.mem_iff_getElem.mp member
    have announced : (described e, i) ∈ (b.entries.toList.map described).zipIdx 0 := by
      rw [List.mk_mem_zipIdx_iff_getElem?, List.getElem?_map, Array.getElem?_toList,
        Array.getElem?_eq_getElem inside, atIndex, Option.map_some]
    -- a list is not flagged, so what is read has the cardinality that was announced
    have plain : isFlagged b.runFlags i = false := by
      rw [isFlagged_runFlags b i inside, atIndex, empty]
      rfl
    obtain ⟨d, found, made⟩ := exists_of_forall₂ filled _ announced
    refine ⟨d, ?_, made.key, ?_⟩
    · rw [same, ← Array.mem_toList_iff, parts]
      exact found
    · rw [made.cardinality plain, described, empty]
      rfl

/-- The written form is accepted, and what is handed out for it holds the same values. -/
def ReadsBack (b : Bitmap) : Prop :=
  ∃ c, deserializeValidated b.serialize = .ok (.ok c) ∧ ∀ v, v ∈ c.values ↔ v ∈ b.values

theorem ReadsBack.ne_empty {b : Bitmap} (sound : Sound .canonical b.entries.toList)
    (back : b.ReadsBack) : ∀ e ∈ b.entries, e.container ≠ .empty := by
  intro e member empty
  obtain ⟨c, accepted, same⟩ := back
  obtain ⟨read, -, formed⟩ := (accepted_iff _ c).mp accepted
  obtain ⟨d, found, key, full⟩ :=
    full_of_empty (containerCount_le sound.ascending) read member empty
  -- a value of the full container would have to be one of the empty list under the same key
  have some : ∃ low, low ∈ d.container := by
    by_contra none
    have counted := (formed d found).cardinality_eq_zero_iff.mpr fun low held => none ⟨low, held⟩
    omega
  obtain ⟨low, held⟩ := some
  have inC : c.Has (join e.key low) := by
    rw [Has, split_join]
    exact ⟨d, Array.mem_toList_iff.mpr found, key, held⟩
  have inB : b.Has (join e.key low) := by
    rw [← mem_values fun d member => (sound.good d member).formed, ← same,
      mem_values fun d member => formed d (Array.mem_toList_iff.mp member)]
    exact inC
  rw [Has, split_join] at inB
  obtain ⟨d, inside, key, held⟩ := inB
  rw [sound.eq_of_key inside (Array.mem_toList_iff.mpr member) key, empty] at held
  exact Container.not_mem_empty low held

theorem readsBack_iff {b : Bitmap} (sound : Sound .canonical b.entries.toList) :
    b.ReadsBack ↔ ∀ e ∈ b.entries, e.container ≠ .empty :=
  ⟨ReadsBack.ne_empty sound, fun some => ⟨b, accepted_serialize sound some, fun _ => Iff.rfl⟩⟩

/-- A container without values becomes the empty list once it may not be runs. -/
theorem lost_of_isEmpty {b : Bitmap} (sound : Sound .canonical b.entries.toList) {e : Entry}
    (member : e ∈ b.entries) (none : e.container.isEmpty = true) :
    ∃ c, runAll [.removeRunCompression] b = .ok c ∧ ¬ c.ReadsBack := by
  obtain ⟨c, done, same⟩ := removeRunCompression_reencoded fun e member =>
    sound.good e (Array.mem_toList_iff.mpr member)
  rw [← Array.mem_toList_iff] at member
  obtain ⟨d, found, changed, plain⟩ := exists_of_forall₂ same e member
  have empty : d.container = .empty := changed.good.eq_empty plain fun v held =>
    (sound.good e member).formed.isEmpty_iff.mp none v ((changed.mem_iff v).mp held)
  have soundC := sound_of_reencoded sound (same.imp fun _ _ => And.left)
  refine ⟨c, ?_, fun back => back.ne_empty soundC d (Array.mem_toList_iff.mp found) empty⟩
  rw [runAll, List.foldlM_cons, Call.run, done]
  rfl

/-- The calls keep a bitmap sound, and one that was well formed regular. -/
theorem runAll_sound {b : Bitmap} (sound : Sound .canonical b.entries.toList) (calls : List Call)
    (total : ∀ call ∈ calls, call.Total) :
    ∃ c, runAll calls b = .ok c ∧ Sound .canonical c.entries.toList ∧
      (b.WellFormed → Regular .canonical c.entries.toList) := by
  have regular : b.WellFormed → Regular .canonical b.entries.toList := fun formed =>
    ⟨sound.ascending, sound.good, (wellFormed_iff.mp formed).nonempty⟩
  apply runAll_preserves _ calls b ⟨sound, regular⟩
  rintro call member c ⟨soundC, regularC⟩
  obtain ⟨d, done, soundD⟩ := call.run_sound (total call member) soundC
  exact ⟨d, done, soundD, fun formed => call.run_regular (regularC formed) done⟩

/-- A bitmap that was handed out answers every sequence of calls. What comes out is read back as it
is, unless a key of it stands over the empty list; then it is not read back at all or with other
values. Exactly the well-formed ones among those handed out are read back whatever was called. -/
theorem accepted_readsBack_iff (bytes : List UInt8) (b : Bitmap)
    (accepted : deserializeValidated bytes = .ok (.ok b)) :
    (∀ calls : List Call, (∀ call ∈ calls, call.Total) →
      ∃ c, runAll calls b = .ok c ∧
        (c.ReadsBack ↔ ∀ e ∈ c.entries, e.container ≠ .empty) ∧
        (c.ReadsBack → deserializeValidated c.serialize = .ok (.ok c))) ∧
      ((∀ calls : List Call, (∀ call ∈ calls, call.Total) →
        ∃ c, runAll calls b = .ok c ∧ c.ReadsBack) ↔ b.WellFormed) := by
  have sound := sound_of_accepted accepted
  refine ⟨fun calls total => ?_, fun always => ?_, fun formed calls total => ?_⟩
  · obtain ⟨c, done, soundC, -⟩ := runAll_sound sound calls total
    refine ⟨c, done, readsBack_iff soundC, fun back => ?_⟩
    exact accepted_serialize soundC (back.ne_empty soundC)
  · have nonempty : ∀ e ∈ b.entries, e.container.isEmpty = false := by
      intro e member
      by_contra none
      rw [Bool.not_eq_false] at none
      obtain ⟨c, done, lost⟩ := lost_of_isEmpty sound member none
      obtain ⟨d, answer, back⟩ := always [.removeRunCompression] (by simp [Call.Total])
      rw [Except.ok.inj (done.symm.trans answer)] at lost
      exact lost back
    exact ⟨sound.ascending, fun e member =>
      ⟨(sound.good e (Array.mem_toList_iff.mpr member)).formed, nonempty e member⟩⟩
  · obtain ⟨c, done, soundC, regular⟩ := runAll_sound sound calls total
    refine ⟨c, done, (readsBack_iff soundC).mpr fun e member empty => ?_⟩
    have some := (regular formed).nonempty e (Array.mem_toList_iff.mpr member)
    rw [empty] at some
    contradiction

/-- The container of no runs becomes the empty list, and with it the bitmap is not read back. -/
theorem accepted_readsBack_iff_no_runs :
    let bytes : List UInt8 := [59, 48, 0, 0, 1, 0, 0, 0, 0, 0, 0]
    let b : Bitmap := ⟨#[⟨0, .runs ⟨#[]⟩⟩]⟩
    let c : Bitmap := ⟨#[⟨0, .array ⟨#[]⟩⟩]⟩
    let calls : List Call := [.insert 65536, .eraseRange ⟨65536, 65537⟩, .removeRunCompression]
    deserializeValidated bytes = .ok (.ok b) ∧ (∀ call ∈ calls, call.Total) ∧
      runAll calls b = .ok c ∧ ¬ c.ReadsBack := by
  intro bytes b c calls
  have read : deserializeSlice bytes = .ok b := by
    unfold bytes b
    rfl
  have accepted := (accepted_iff bytes b).mpr ⟨read, by decide, by decide⟩
  have total : ∀ call ∈ calls, call.Total := by simp [calls, Call.Total]
  have found : (runAll calls b).toOption = some c := by
    unfold calls b c
    decide +kernel
  obtain ⟨d, done, again, -⟩ := (accepted_readsBack_iff bytes b accepted).1 calls total
  rw [done] at found
  have same : d = c := Option.some.inj found
  rw [same] at done again
  refine ⟨accepted, total, done, fun back => ?_⟩
  exact again.mp back ⟨0, .empty⟩ (by simp [c, Container.empty, ArraySet.empty]) rfl

end Roaring.Bitmap
