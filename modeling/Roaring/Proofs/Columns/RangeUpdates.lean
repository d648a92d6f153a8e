import Roaring.Proofs.Bitmap.RangeUpdates
import Roaring.Proofs.Bitmap.Sound
import Roaring.Proofs.Columns.Ranges

/-! What range updates of columns do to the values, to their number, and to what stands under each
key. -/
namespace Roaring.Columns

open Bitmap (Untouched domain)

/-- The container at the index of a key. -/
def Under (s : Columns) (key : UInt16) (c : Container) : Prop :=
  ∃ i : Nat, s.keys[i]? = some key ∧ s.containers[i]? = some c

/-- The values, each with its low half in the container under its key. -/
def members (s : Columns) : Set UInt32 := {v | ∃ c, s.Under (split v).1 c ∧ (split v).2 ∈ c}

variable {b c : Bitmap} {range : Span} {entries : Array Entry}

theorem under_ofEntries {key : UInt16} {x : Container} :
    (ofEntries entries).Under key x ↔ ⟨key, x⟩ ∈ entries.toList := by
  rw [List.mem_iff_getElem?, Under]
  apply exists_congr
  intro i
  rw [ofEntries, Array.getElem?_map, Array.getElem?_map, Array.getElem?_toList]
  cases entries[i]? with
  | none => simp
  | some e =>
    obtain ⟨k, c⟩ := e
    simp

theorem members_ofEntries (formed : b.WellFormed) : (ofEntries b.entries).members = b.members := by
  ext v
  rw [formed.mem_members, members, Set.mem_ofPred_eq]
  simp only [under_ofEntries]
  constructor
  · rintro ⟨x, member, low⟩
    exact ⟨⟨(split v).1, x⟩, member, rfl, low⟩
  · rintro ⟨e, member, same, low⟩
    exact ⟨e.container, by rwa [← same], low⟩

/-! Adding a range. -/

/-- What columns are after a range was added, and how many values came with it. -/
structure RangeInserted (range : Span) (s t : Columns) (added : Nat) : Prop where
  formed : t.WellFormed
  canonical : s.Canonical → t.Canonical
  members : t.members = s.members ∪ {v | v.toNat ∈ range}
  count : added = {v : UInt32 | v.toNat ∈ range ∧ v ∉ s.members}.ncard
  covered : ∀ key : UInt16, range.start ≤ 65536 * key.toNat → 65536 * (key.toNat + 1) ≤ range.stop →
    ∃ x, t.Under key x ∧ x.isFull = true
  untouched : ∀ key, Untouched range key → ∀ x, t.Under key x ↔ s.Under key x

theorem insertRange_inserted (formed : b.WellFormed) (forwards : range.start < range.stop)
    (inside : range.stop ≤ domain) :
    ∃ t added, (insertRange range).run (ofEntries b.entries) = .ok added t ∧
      RangeInserted range (ofEntries b.entries) t added := by
  have regular := Bitmap.wellFormed_iff.mp formed
  obtain ⟨c, added, front, middle, kept, back, done, replaced, holds, counted⟩ :=
    Bitmap.insertRange_replaced regular forwards inside
  have walked := insertRange_ofEntries formed range
  rw [done] at walked
  have regularC := replaced.regular regular
  have formedC : c.WellFormed := Bitmap.wellFormed_iff.mpr regularC
  have held := replaced.holds_iff holds
  have members : c.members = b.members ∪ {v | v.toNat ∈ range} := by
    ext v
    rw [formedC.mem_members, Bitmap.Has, held, Bitmap.reaches_keyRanges forwards inside,
      Set.mem_union, formed.mem_members, or_comm]
    rfl
  refine ⟨ofEntries c.entries, added, walked, ?_⟩
  refine ⟨(wellFormed_ofEntries c).mpr formedC, fun canonical => ?_, ?_, ?_, fun key first last => ?_,
    fun key untouched x => ?_⟩
  · rw [canonical_ofEntries, Bitmap.canonical_iff] at canonical ⊢
    obtain ⟨d, count, answer, regularD⟩ := Bitmap.insertRange_spec canonical range inside
    rw [done] at answer
    rw [(Prod.mk.inj (Except.ok.inj answer)).1]
    exact regularD
  · rw [members_ofEntries formedC, members_ofEntries formed, members]
  · rw [members_ofEntries formed]
    apply Bitmap.ncard_fresh formed formedC members
    have total := replaced.cardinality
    omega
  · simp only [under_ofEntries]
    apply regularC.full_of_holds
    intro low
    have here := Bitmap.reaches_keyRanges forwards inside (join key low)
    rw [split_join, toNat_join, Span.mem_def] at here
    have below := low.toNat_lt
    exact (held key low).mpr (Or.inl (here.mpr (by omega)))
  · rw [under_ofEntries, under_ofEntries]
    exact replaced.mem_iff untouched

/-- An empty range adds nothing. A range that leaves the domain is refused, and both columns are left
as they are. Any other range is added: its values join the old ones, whatever the encodings, and the
answer is how many of them were absent. The keys that it covers get full containers, and under the
keys that it does not reach the same containers stand as before. -/
theorem insertRange_exact (s : Columns) (formed : s.WellFormed) (range : Span) :
    (range.stop ≤ range.start → (insertRange range).run s = .ok 0 s) ∧
      (range.start < range.stop → domain < range.stop →
        (insertRange range).run s = .error (.outsideDomain range) s) ∧
      (range.start < range.stop → range.stop ≤ domain →
        ∃ t added, (insertRange range).run s = .ok added t ∧ RangeInserted range s t added) := by
  refine ⟨fun backwards => ?_, fun forwards outside => ?_, ?_⟩
  · rw [insertRange, if_pos (by simpa [Span.isEmpty] using backwards), run_pure]
  · rw [insertRange, if_neg (by simpa [Span.isEmpty] using forwards), if_pos outside, run_throw]
  · obtain ⟨b, formedB, rfl⟩ := formed.exists_entries
    exact insertRange_inserted formedB

/-- From the middle of one key over two others, one of them new, into a fourth. -/
theorem insertRange_exact_around :
    let s : Columns := ⟨#[0, 1, 2, 5],
      #[.array ⟨#[1]⟩, .array ⟨#[0]⟩, .runs ⟨#[⟨7, 3⟩]⟩, .array ⟨#[0]⟩]⟩
    let range : Span := ⟨65541, 262151⟩
    let past : Span := ⟨9, 4294967297⟩
    s.WellFormed ∧ (insertRange ⟨9, 9⟩).run s = .ok 0 s ∧
      (insertRange past).run s = .error (.outsideDomain past) s ∧
      ∃ t added, (insertRange range).run s = .ok added t ∧ RangeInserted range s t added ∧
        t.Under 0 (.array ⟨#[1]⟩) ∧ (∃ x, t.Under 2 x ∧ x.isFull = true) ∧
        ∃ x, t.Under 3 x ∧ x.isFull = true := by
  intro s range past
  have formed : s.WellFormed := by decide
  obtain ⟨t, added, done, inserted⟩ := (insertRange_exact s formed range).2.2 (by decide) (by decide)
  refine ⟨formed, (insertRange_exact s formed ⟨9, 9⟩).1 (by decide),
    (insertRange_exact s formed past).2.1 (by decide) (by decide), t, added, done, inserted, ?_, ?_,
    ?_⟩
  · exact (inserted.untouched 0 (Or.inl (by decide)) _).mpr ⟨0, rfl, rfl⟩
  · exact inserted.covered 2 (by decide) (by decide)
  · exact inserted.covered 3 (by decide) (by decide)

/-! Removing a range. -/

/-- What columns are after a range was removed, and how many values went with it. At the index of a key
stands what the range leaves of its own container, and the key is gone where that is nothing. -/
structure RangeErased (range : Span) (s t : Columns) (removed : Nat) : Prop where
  formed : t.WellFormed
  canonical : s.Canonical → t.Canonical
  members : t.members = s.members \ {v | v.toNat ∈ range}
  count : removed = (s.members ∩ {v | v.toNat ∈ range}).ncard
  keys : t.keys.toList.Sublist s.keys.toList
  own : ∀ key x, t.Under key x ↔ ∃ old, s.Under key old ∧
    old.eraseRange (Bitmap.lowRange range key.toNat) = .ok x ∧ x.isEmpty = false
  dropped : ∀ key old, s.Under key old →
    (key ∉ t.keys ↔ ∀ low ∈ old, (join key low).toNat ∈ range)
  untouched : ∀ key, Untouched range key → ∀ x, t.Under key x ↔ s.Under key x

theorem mem_keys_ofEntries {key : UInt16} :
    key ∈ (ofEntries entries).keys ↔ ∃ x, (⟨key, x⟩ : Entry) ∈ entries.toList := by
  rw [ofEntries, Array.mem_map]
  constructor
  · rintro ⟨e, member, rfl⟩
    exact ⟨e.container, Array.mem_toList_iff.mpr member⟩
  · rintro ⟨x, member⟩
    exact ⟨⟨key, x⟩, Array.mem_toList_iff.mp member, rfl⟩

section

variable (formed : b.WellFormed) (settled : c.entries.toList = Bitmap.cutAll range b.entries.toList)
include formed settled

theorem under_of_cutAll (key : UInt16) (x : Container) : (ofEntries c.entries).Under key x ↔
    ∃ old, (ofEntries b.entries).Under key old ∧
      old.eraseRange (Bitmap.lowRange range key.toNat) = .ok x ∧ x.isEmpty = false := by
  have regular := Bitmap.wellFormed_iff.mp formed
  simp only [under_ofEntries]
  rw [settled, Bitmap.mem_cutAll]
  constructor
  · rintro ⟨e, member, same, some⟩
    obtain ⟨rfl, rfl⟩ := Entry.mk.inj same
    exact ⟨e.container, member, (Bitmap.cut_spec range (regular.good e member).formed).1, some⟩
  · rintro ⟨old, member, done, some⟩
    have again := (Bitmap.cut_spec range (regular.good _ member).formed).1
    simp only at again
    obtain rfl := Except.ok.inj (again.symm.trans done)
    exact ⟨⟨key, old⟩, member, rfl, some⟩

theorem erased_of_cutAll : RangeErased range (ofEntries b.entries) (ofEntries c.entries)
    (Bitmap.lost range b.entries.toList) := by
  have regular := Bitmap.wellFormed_iff.mp formed
  have formedC := Bitmap.wellFormed_of_cutAll formed settled
  have own := under_of_cutAll formed settled
  refine ⟨(wellFormed_ofEntries c).mpr formedC, fun canonical => ?_, ?_, ?_, ?_, own,
    fun key old found => ?_, fun key untouched x => ?_⟩
  · rw [canonical_ofEntries, Bitmap.canonical_iff] at canonical ⊢
    rw [settled]
    exact Bitmap.regular_cutAll canonical.ascending canonical.good
  · rw [members_ofEntries formedC, members_ofEntries formed]
    exact Bitmap.members_of_cutAll formed settled
  · rw [members_ofEntries formed]
    exact Bitmap.lost_eq_ncard formed settled
  · rw [ofEntries, ofEntries, Array.toList_map, Array.toList_map, settled]
    exact Bitmap.keys_cutAll_sublist b.entries.toList
  · rw [under_ofEntries] at found
    have changed := (Bitmap.cut_spec range (regular.good _ found).formed).2
    have gone : key ∉ (ofEntries c.entries).keys ↔ (Bitmap.cut range ⟨key, old⟩).isEmpty = true := by
      rw [mem_keys_ofEntries, settled, not_iff_comm, Bool.not_eq_true]
      constructor
      · intro some
        exact ⟨_, Bitmap.mem_cutAll.mpr ⟨⟨key, old⟩, found, rfl, some⟩⟩
      · rintro ⟨x, left⟩
        obtain ⟨e, member, same, some⟩ := Bitmap.mem_cutAll.mp left
        rwa [regular.sound.eq_of_key found member (Entry.mk.inj same).1]
    rw [gone, changed.formed.isEmpty_iff]
    simp [changed.mem_iff, Bitmap.mem_lowRange]
  · have whole (old : Container) : Bitmap.cut range ⟨key, old⟩ = old :=
      Bitmap.cut_of_isEmpty ⟨key, old⟩ untouched.isEmpty
    rw [under_ofEntries, under_ofEntries, settled, Bitmap.mem_cutAll]
    constructor
    · rintro ⟨e, member, same, -⟩
      obtain ⟨rfl, rfl⟩ := Entry.mk.inj same
      rwa [whole]
    · intro member
      exact ⟨⟨key, x⟩, member, by rw [whole], by rw [whole]; exact regular.nonempty _ member⟩

end

/-- A range is removed from any columns, from any start to any end. Its values go, whatever the
encodings, and the answer is how many of them were there. A key goes with the last of its values and
not before, and at the index of each of the others stands its own container; under those that the
range does not reach the same containers stand as before. A range without values in the domain changes
nothing. -/
theorem eraseRange_exact (s : Columns) (formed : s.WellFormed) (range : Span) :
    (range.stop ≤ range.start ∨ domain ≤ range.start → (eraseRange range).run s = .ok 0 s) ∧
      ∃ t removed, (eraseRange range).run s = .ok removed t ∧ RangeErased range s t removed := by
  refine ⟨fun nothing => ?_, ?_⟩
  · have backwards : (Bitmap.clamped range).isEmpty = true := by
      rw [Span.isEmpty, decide_eq_true_eq]
      change min range.stop domain ≤ range.start
      omega
    rw [eraseRange]
    exact congrArg (EStateM.run · s) (if_pos backwards)
  · obtain ⟨b, formedB, rfl⟩ := formed.exists_entries
    obtain ⟨c, done, entries⟩ := Bitmap.eraseRange_entries (Bitmap.wellFormed_iff.mp formedB) range
    obtain ⟨d, removed, again, walked⟩ := eraseRange_ofEntries formedB range
    obtain ⟨rfl, rfl⟩ := Prod.mk.inj (Except.ok.inj (done.symm.trans again))
    exact ⟨_, _, walked, erased_of_cutAll formedB entries⟩

/-- From the middle of one key over a second one, which goes, into a third. -/
theorem eraseRange_exact_across :
    let s : Columns := ⟨#[0, 1, 2, 5],
      #[.array ⟨#[1, 9]⟩, .runs ⟨#[⟨7, 3⟩]⟩, .array ⟨#[0, 5]⟩, .array ⟨#[0]⟩]⟩
    let range : Span := ⟨5, 131073⟩
    s.WellFormed ∧ (eraseRange ⟨9, 9⟩).run s = .ok 0 s ∧
      ∃ t removed, (eraseRange range).run s = .ok removed t ∧ RangeErased range s t removed ∧
        0 ∈ t.keys ∧ 1 ∉ t.keys ∧ t.Under 5 (.array ⟨#[0]⟩) := by
  intro s range
  have formed : s.WellFormed := by decide
  obtain ⟨t, removed, done, erased⟩ := (eraseRange_exact s formed range).2
  refine ⟨formed, (eraseRange_exact s formed ⟨9, 9⟩).1 (Or.inl (by decide)), t, removed, done, erased,
    ?_, ?_, ?_⟩
  · by_contra gone
    have whole := (erased.dropped 0 (.array ⟨#[1, 9]⟩) ⟨0, rfl, rfl⟩).mp gone
    exact absurd (whole 1 (by simp [Container.mem_array, ArraySet.mem_def])) (by decide)
  · refine (erased.dropped 1 (.runs ⟨#[⟨7, 3⟩]⟩) ⟨1, rfl, rfl⟩).mpr fun low _ => ?_
    have below := low.toNat_lt
    rw [toNat_join, Span.mem_def]
    change 5 ≤ 65536 * 1 + low.toNat ∧ 65536 * 1 + low.toNat < 131073
    omega
  · exact (erased.untouched 5 (Or.inr (by decide)) _).mpr ⟨3, rfl, rfl⟩

end Roaring.Columns
