import Roaring.Proofs.Container.Convert
import Roaring.Proofs.Bitmap.Update

/-! The values of a bitmap as a list. Keys come before low halves in the order of values, so entries
with ascending keys list their values in ascending order, and the list determines the rest. -/
namespace Roaring

theorem toNat_join (key low : UInt16) : (join key low).toNat = 65536 * key.toNat + low.toNat := by
  have high := key.toNat_lt
  have shifted : key.toNat <<< 16 % 2 ^ 32 = 2 ^ 16 * key.toNat := by
    rw [Nat.shiftLeft_eq, Nat.mul_comm]
    exact Nat.mod_eq_of_lt (by omega)
  rw [join, UInt32.toNat_or, UInt32.toNat_shiftLeft, UInt16.toNat_toUInt32, UInt16.toNat_toUInt32]
  change key.toNat <<< 16 % 2 ^ 32 ||| low.toNat = _
  rw [shifted, ← Nat.two_pow_add_eq_or_of_lt low.toNat_lt]

theorem toNat_split (v : UInt32) :
    (split v).1.toNat = v.toNat / 65536 ∧ (split v).2.toNat = v.toNat % 65536 := by
  have inside := v.toNat_lt
  constructor
  · rw [split, UInt32.toNat_toUInt16, UInt32.toNat_shiftRight]
    change v.toNat >>> 16 % 2 ^ 16 = _
    rw [Nat.shiftRight_eq_div_pow]
    omega
  · rw [split, UInt32.toNat_toUInt16]

theorem split_join (key low : UInt16) : split (join key low) = (key, low) := by
  have parts := toNat_split (join key low)
  have below := low.toNat_lt
  rw [toNat_join] at parts
  apply Prod.ext
  · apply UInt16.toNat_inj.mp
    rw [parts.1]
    change _ = key.toNat
    omega
  · apply UInt16.toNat_inj.mp
    rw [parts.2]
    change _ = low.toNat
    omega

theorem join_split (v : UInt32) : join (split v).1 (split v).2 = v := by
  apply UInt32.toNat_inj.mp
  rw [toNat_join, (toNat_split v).1, (toNat_split v).2, Nat.div_add_mod]

theorem join_lt_join (j k u v : UInt16) : join j u < join k v ↔ j < k ∨ j = k ∧ u < v := by
  have := u.toNat_lt
  have := v.toNat_lt
  rw [UInt32.lt_iff_toNat_lt, UInt16.lt_iff_toNat_lt, UInt16.lt_iff_toNat_lt, ← UInt16.toNat_inj,
    toNat_join, toNat_join]
  omega

/-- Containers compare as equal when they hold the same, whatever the encodings. -/
theorem Container.Ordered.sameValues_iff {c d : Container} (orderedC : c.Ordered)
    (orderedD : d.Ordered) : c.sameValues d = true ↔ ∀ v, v ∈ c ↔ v ∈ d := by
  have mixed : (c.cardinality == d.cardinality && c.values == d.values) = true ↔
      ∀ v, v ∈ c ↔ v ∈ d := by
    rw [Bool.and_eq_true, beq_iff_eq, beq_iff_eq]
    constructor
    · rintro ⟨-, values⟩ v
      rw [← orderedC.mem_values, values, orderedD.mem_values]
    · intro same
      exact ⟨orderedC.cardinality_eq orderedD same, orderedC.values_eq orderedD same⟩
  rw [sameValues.eq_def]
  split
  · rename_i s t
    rw [beq_iff_eq]
    constructor
    · rintro rfl v
      exact Iff.rfl
    · intro same
      have values : s.values = t.values := orderedC.values_eq orderedD same
      cases s
      cases t
      exact congrArg _ values
  · rename_i r q
    rw [beq_iff_eq]
    constructor
    · rintro rfl v
      exact Iff.rfl
    · intro same
      exact RunSet.ext orderedC orderedD same
  · rename_i a b
    rw [beq_iff_eq]
    constructor
    · intro words v
      rw [mem_bits, mem_bits, BitSet.mem_def, BitSet.mem_def, words]
    · exact fun same => BitSet.words_eq same
  · exact mixed

namespace Bitmap

variable {g : Grade} {a b : Bitmap}

theorem toList_values (b : Bitmap) :
    b.values.toList =
      b.entries.toList.flatMap (fun e => e.container.values.toList.map (join e.key)) := by
  simp [values]

theorem mem_values (formed : ∀ e ∈ b.entries.toList, e.container.WellFormed) (v : UInt32) :
    v ∈ b.values ↔ b.Has v := by
  rw [← Array.mem_toList_iff, toList_values, List.mem_flatMap]
  constructor
  · rintro ⟨e, member, listed⟩
    obtain ⟨low, inside, rfl⟩ := List.mem_map.mp listed
    rw [Array.mem_toList_iff, (formed e member).mem_values] at inside
    rw [Has, split_join]
    exact ⟨e, member, rfl, inside⟩
  · rintro ⟨e, member, key, inside⟩
    refine ⟨e, member, List.mem_map.mpr ⟨(split v).2, ?_, ?_⟩⟩
    · rwa [Array.mem_toList_iff, (formed e member).mem_values]
    · rw [key, join_split]

theorem values_ascending (regular : Regular g b.entries.toList) :
    b.values.toList.Pairwise (· < ·) := by
  rw [toList_values, List.pairwise_flatMap]
  constructor
  · intro e member
    apply List.pairwise_map.mpr
    apply (regular.good e member).formed.values_ascending.imp
    intro u v less
    exact (join_lt_join _ _ _ _).mpr (.inr ⟨rfl, less⟩)
  · apply regular.ascending.imp
    intro d e less u inD v inE
    obtain ⟨lowD, -, rfl⟩ := List.mem_map.mp inD
    obtain ⟨lowE, -, rfl⟩ := List.mem_map.mp inE
    exact (join_lt_join _ _ _ _).mpr (.inl less)

theorem size_values (formed : ∀ e ∈ b.entries.toList, e.container.WellFormed) :
    b.values.size = b.cardinality := by
  have sum : ∀ (entries : List Entry) (n : Nat), (∀ e ∈ entries, e.container.WellFormed) →
      n + (entries.flatMap fun e => e.container.values.toList.map (join e.key)).length =
        entries.foldl (fun n e => n + e.container.cardinality) n := by
    intro entries
    induction entries with
    | nil => simp
    | cons e entries ih =>
      intro n formed
      rw [List.foldl_cons, ← ih _ fun d member => formed d (List.mem_cons_of_mem _ member),
        List.flatMap_cons, List.length_append, List.length_map, Array.length_toList,
        (formed e List.mem_cons_self).size_values, Nat.add_assoc]
  have whole := sum b.entries.toList 0 formed
  rwa [Nat.zero_add, ← toList_values, Array.length_toList, Array.foldl_toList] at whole

theorem values_ne_nil (regular : Regular g b.entries.toList) {e : Entry}
    (member : e ∈ b.entries.toList) : e.container.values.toList ≠ [] := by
  intro none
  have formed := (regular.good e member).formed
  obtain ⟨v, inside⟩ := Container.exists_mem formed (regular.nonempty e member)
  rw [← formed.mem_values, ← Array.mem_toList_iff, none] at inside
  contradiction

theorem cardinality_eq_zero_iff (formed : ∀ e ∈ b.entries.toList, e.container.WellFormed) :
    b.cardinality = 0 ↔ ∀ e ∈ b.entries.toList, e.container.isEmpty = true := by
  rw [← size_values formed, ← Array.length_toList, List.length_eq_zero_iff, toList_values,
    List.flatMap_eq_nil_iff]
  apply forall₂_congr
  intro e member
  rw [List.map_eq_nil_iff, ← List.length_eq_zero_iff, Array.length_toList,
    (formed e member).size_values, (formed e member).cardinality_eq_zero_iff,
    (formed e member).isEmpty_iff]

/-- A bitmap without entries is the only one without values. -/
theorem isEmpty_iff (regular : Regular g b.entries.toList) :
    b.isEmpty = true ↔ b.cardinality = 0 := by
  rw [cardinality_eq_zero_iff fun e member => (regular.good e member).formed, isEmpty,
    Array.isEmpty_iff, ← Array.toList_eq_nil_iff]
  constructor
  · intro none e member
    rw [none] at member
    contradiction
  · intro empty
    apply List.eq_nil_iff_forall_not_mem.mpr
    intro e member
    exact absurd ((regular.nonempty e member).symm.trans (empty e member)) (by decide)

theorem min?_eq (regular : Regular g b.entries.toList) : b.min? = b.values.toList.head? := by
  rw [toList_values, min?, ← Array.getElem?_toList]
  cases entries : b.entries.toList with
  | nil => rfl
  | cons e rest =>
    have member : e ∈ b.entries.toList := entries ▸ List.mem_cons_self
    have some := values_ne_nil regular member
    rw [List.flatMap_cons, List.head?_append_of_ne_nil _ (by simpa using some), List.head?_map,
      ← (regular.good e member).formed.min?_eq, List.getElem?_cons_zero]
    exact Option.map_eq_bind.symm

theorem max?_eq (regular : Regular g b.entries.toList) : b.max? = b.values.toList.getLast? := by
  rw [toList_values, max?, ← Array.getLast?_toList]
  rcases List.eq_nil_or_concat b.entries.toList with none | ⟨front, e, entries⟩
  · rw [none]
    rfl
  · have member : e ∈ b.entries.toList := by simp [entries]
    have some := values_ne_nil regular member
    rw [entries, List.concat_eq_append, List.getLast?_concat, List.flatMap_append, List.flatMap_singleton,
      List.getLast?_append_of_ne_nil _ (by simpa using some), List.getLast?_map,
      ← (regular.good e member).formed.max?_eq]
    exact Option.map_eq_bind.symm

theorem Regular.head_key_le {d e : Entry} {ds es : List Entry} (first : Regular g (d :: ds))
    (second : Regular g (e :: es))
    (same : ∀ k v, Holds (d :: ds) k v ↔ Holds (e :: es) k v) : ¬ d.key < e.key := by
  intro below
  obtain ⟨low, held⟩ := first.exists_holds List.mem_cons_self
  exact second.not_holds_below below low ((same d.key low).mp held)

/-- Regular lists hold the same only when they have the same keys, and the same under each. -/
theorem Regular.same_iff {ds es : List Entry} (first : Regular g ds) (second : Regular g es) :
    (ds.map Entry.key = es.map Entry.key ∧
        ∀ p ∈ ds.zip es, p.1.container.sameValues p.2.container = true) ↔
      ∀ k v, Holds ds k v ↔ Holds es k v := by
  induction ds generalizing es with
  | nil =>
    cases es with
    | nil => simp
    | cons e es =>
      obtain ⟨low, held⟩ := second.exists_holds List.mem_cons_self
      have differ : ¬ ∀ k v, Holds [] k v ↔ Holds (e :: es) k v := fun same =>
        (holds_nil.mp ((same e.key low).mpr held))
      simpa using differ
  | cons d ds ih =>
    cases es with
    | nil =>
      obtain ⟨low, held⟩ := first.exists_holds List.mem_cons_self
      have differ : ¬ ∀ k v, Holds (d :: ds) k v ↔ Holds [] k v := fun same =>
        (holds_nil.mp ((same d.key low).mp held))
      simpa using differ
    | cons e es =>
      have here := first.head_good.formed.ordered.sameValues_iff second.head_good.formed.ordered
      have later := ih first.tail second.tail
      rw [List.map_cons, List.map_cons, List.cons.injEq, List.zip_cons_cons, List.forall_mem_cons]
      constructor
      · rintro ⟨⟨key, keys⟩, equal, rest⟩ k v
        rw [holds_cons, holds_cons, key, here.mp equal v, later.mp ⟨keys, rest⟩ k v]
      · intro same
        have key : d.key = e.key := by
          have le := UInt16.not_lt.mp (first.head_key_le second same)
          have ge := UInt16.not_lt.mp (second.head_key_le first fun k v => (same k v).symm)
          exact UInt16.le_antisymm ge le
        have equal : ∀ v, v ∈ d.container ↔ v ∈ e.container := by
          intro v
          rw [← first.holds_head, ← second.holds_head, ← key, same]
        have tails : ∀ k v, Holds ds k v ↔ Holds es k v := by
          intro k v
          by_cases other : d.key = k
          · subst other
            have notSecond : ¬ Holds es d.key v := key ▸ second.not_holds_tail v
            exact iff_of_false (first.not_holds_tail v) notSecond
          · rw [← holds_other other, same, holds_other (key ▸ other)]
        obtain ⟨keys, rest⟩ := later.mpr tails
        exact ⟨⟨key, keys⟩, here.mpr equal, rest⟩

theorem sameValues_iff_entries (a b : Bitmap) : a.sameValues b = true ↔
    a.entries.toList.map Entry.key = b.entries.toList.map Entry.key ∧
      ∀ p ∈ a.entries.toList.zip b.entries.toList,
        p.1.container.sameValues p.2.container = true := by
  rw [sameValues, Bool.and_eq_true, beq_iff_eq, ← Array.all_toList, List.all_eq_true,
    Array.toList_zip, keys, keys, ← Array.toList_inj, Array.toList_map, Array.toList_map]

theorem sameValues_iff (first : Regular g a.entries.toList) (second : Regular g b.entries.toList) :
    a.sameValues b = true ↔ ∀ v, v ∈ a.values ↔ v ∈ b.values := by
  have formedA := fun e member => (first.good e member).formed
  have formedB := fun e member => (second.good e member).formed
  rw [sameValues_iff_entries, first.same_iff second]
  constructor
  · intro same v
    rw [mem_values formedA, mem_values formedB]
    exact same _ _
  · intro same k v
    have listed := same (join k v)
    rwa [mem_values formedA, mem_values formedB, Has, Has, split_join] at listed

end Bitmap

end Roaring
