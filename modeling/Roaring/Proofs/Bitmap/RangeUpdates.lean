import Roaring.Proofs.Bitmap.Count
import Roaring.Proofs.Bitmap.Ranges

/-! What a range takes part in: the values and the entries that it reaches, and how many values come
or go with it. -/
namespace Roaring

namespace Bitmap

variable {g : Grade} {b c : Bitmap} {range : Span} {front middle kept back : List Entry}

theorem reaches_keyRanges (forwards : range.start < range.stop) (inside : range.stop ≤ domain)
    (v : UInt32) : Reaches (keyRanges range) (split v).1 (split v).2 ↔ v.toNat ∈ range := by
  obtain ⟨high, low⟩ := toNat_split v
  rw [Span.mem_def]
  constructor
  · intro reached
    obtain ⟨p, member, key, here⟩ := reached
    obtain ⟨within, part⟩ := (mem_keyRanges forwards inside p).mp member
    rw [part, key, Span.mem_def, lowRange] at here
    simp only at here
    omega
  · intro here
    refine ⟨((split v).1, lowRange range (split v).1.toNat),
      (mem_keyRanges forwards inside _).mpr ⟨?_, rfl⟩, rfl, ?_⟩
    · simp only
      omega
    · rw [Span.mem_def, lowRange]
      simp only
      omega

theorem cardinality_eq_amount (b : Bitmap) : b.cardinality = amount b.entries.toList := by
  rw [cardinality, amount, List.sum_eq_foldl, List.foldl_map, ← Array.foldl_toList]

theorem Window.mem_iff (window : Window range front middle back) {e : Entry}
    (untouched : Untouched range e.key) :
    e ∈ front ++ middle ++ back ↔ e ∈ front ++ back := by
  have other : e ∉ middle := by
    intro member
    have := window.between e member
    rw [Untouched] at untouched
    omega
  simp [other]

namespace Replaced

theorem mem_iff (replaced : Replaced g range b c front middle kept back) {e : Entry}
    (untouched : Untouched range e.key) : e ∈ c.entries.toList ↔ e ∈ b.entries.toList := by
  rw [replaced.before, replaced.after, replaced.placed.mem_iff untouched,
    replaced.reached.mem_iff untouched]

theorem cardinality (replaced : Replaced g range b c front middle kept back) :
    c.cardinality + amount middle = b.cardinality + amount kept := by
  simp only [cardinality_eq_amount, replaced.before, replaced.after, amount_append]
  omega

theorem holds_iff (replaced : Replaced g range b c front middle kept back)
    {more : UInt16 → UInt16 → Prop}
    (holds : ∀ k v, Holds kept k v ↔ more k v ∨ Holds middle k v) (k v : UInt16) :
    Holds c.entries.toList k v ↔ more k v ∨ Holds b.entries.toList k v := by
  rw [replaced.before, replaced.after]
  simp only [holds_append, holds]
  tauto

end Replaced

/-- A container that holds every low half under its key is full. -/
theorem Regular.full_of_holds {entries : List Entry} (regular : Regular g entries) {key : UInt16}
    (all : ∀ low, Holds entries key low) : ∃ x, ⟨key, x⟩ ∈ entries ∧ x.isFull = true := by
  obtain ⟨e, member, rfl, -⟩ := all 0
  refine ⟨e.container, member, ?_⟩
  apply (regular.good e member).formed.isFull_of_forall_mem
  intro low
  have held := all low
  obtain ⟨before, behind, parts⟩ := List.append_of_mem member
  rw [parts] at regular held
  exact (regular.holds_at low).mp held

/-- The values that come with others are as many as the bitmap has more than before. -/
theorem ncard_fresh {added : Nat} {fresh : Set UInt32} (formedB : b.WellFormed)
    (formedC : c.WellFormed) (members : c.members = b.members ∪ fresh)
    (grown : c.cardinality = b.cardinality + added) :
    added = {v | v ∈ fresh ∧ v ∉ b.members}.ncard := by
  have mem (v : UInt32) : v ∈ c.valueSet ↔ v ∈ b.valueSet ∨ v ∈ fresh := by
    rw [formedC.mem_valueSet, formedB.mem_valueSet, ← formedC.mem_members, ← formedB.mem_members,
      members, Set.mem_union]
  have same : {v | v ∈ fresh ∧ v ∉ b.members} = ↑(c.valueSet \ b.valueSet) := by
    ext v
    rw [Set.mem_ofPred_eq, Finset.mem_coe, Finset.mem_sdiff, mem, formedB.mem_members,
      formedB.mem_valueSet]
    tauto
  have subset : b.valueSet ⊆ c.valueSet := fun v old => (mem v).mpr (Or.inl old)
  rw [same, Set.ncard_coe_finset, Finset.card_sdiff_of_subset subset, formedC.card_valueSet,
    formedB.card_valueSet, grown, Nat.add_sub_cancel_left]

theorem mem_lowRange (range : Span) (key low : UInt16) :
    low.toNat ∈ lowRange range key.toNat ↔ (join key low).toNat ∈ range := by
  have below := low.toNat_lt
  rw [toNat_join, lowRange, Span.mem_def, Span.mem_def]
  simp only
  omega

section

variable (formed : b.WellFormed) (entries : c.entries.toList = cutAll range b.entries.toList)
include formed entries

theorem wellFormed_of_cutAll : c.WellFormed := by
  have regular := wellFormed_iff.mp formed
  rw [wellFormed_iff, entries]
  exact regular_cutAll regular.ascending regular.good

theorem members_of_cutAll : c.members = b.members \ {v | v.toNat ∈ range} := by
  have regular := wellFormed_iff.mp formed
  have formedC := wellFormed_of_cutAll formed entries
  ext v
  have part := mem_lowRange range (split v).1 (split v).2
  rw [join_split] at part
  rw [formedC.mem_members, Has, entries,
    holds_cutAll (fun e member => (regular.good e member).formed), part, Set.mem_sdiff,
    formed.mem_members]
  rfl

theorem lost_eq_ncard : lost range b.entries.toList = (b.members ∩ {v | v.toNat ∈ range}).ncard := by
  have regular := wellFormed_iff.mp formed
  have members := members_of_cutAll formed entries
  -- the values that went are those that come with the range to what is left
  have back : b.members = c.members ∪ b.members ∩ {v | v.toNat ∈ range} := by
    rw [members, Set.sdiff_union_inter]
  have total : b.cardinality = c.cardinality + lost range b.entries.toList := by
    rw [cardinality_eq_amount, cardinality_eq_amount, entries,
      amount_cutAll fun e member => (regular.good e member).formed]
  rw [ncard_fresh (wellFormed_of_cutAll formed entries) formed back total]
  congr 1
  ext v
  rw [Set.mem_ofPred_eq, members, Set.mem_sdiff, Set.mem_inter_iff]
  tauto

end

end Bitmap

end Roaring
