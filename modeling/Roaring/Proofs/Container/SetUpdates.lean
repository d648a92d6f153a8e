import Mathlib.Order.Bounds.Defs
import Roaring.Proofs.Container.Update

/-! Every update of a container is the update of the set of its values, whatever the encoding, and a
canonical container stays canonical. -/
namespace Roaring.Container

variable {c d : Container}

/-- What an update leaves of a container: the given values, in a container that is canonical where the
old one was. -/
structure Updated (c d : Container) (values : Set UInt16) : Prop where
  formed : d.WellFormed
  members : d.members = values
  canonical : c.Canonical → d.Canonical

theorem Changed.updated {keep : UInt16 → Prop} {values : Set UInt16} (changed : Changed c d keep)
    (same : ∀ v, keep v ↔ v ∈ values) : Updated c d values := by
  refine ⟨changed.formed, ?_, changed.canonical⟩
  ext v
  rw [changed.formed.mem_members, changed.mem_iff, same]

theorem Inserted.changed {v : UInt16} {added : Bool} (inserted : Inserted c v d added) :
    Changed c d (fun u => u ∈ c ∨ u = v) :=
  ⟨inserted.formed, fun u => (inserted.mem_iff u).trans or_comm, inserted.canonical⟩

/-- The updates of a container, each by what it leaves. Adding and removing a value tell whether the
set is another one now, and appending fails for the values below the greatest only. -/
structure SetUpdates (c : Container) : Prop where
  insert : ∀ v, Updated c (c.insert v).1 (c.members ∪ {v}) ∧
    ((c.insert v).2 = true ↔ (c.insert v).1.members ≠ c.members)
  erase : ∀ v, Updated c (c.erase v).1 (c.members \ {v}) ∧
    ((c.erase v).2 = true ↔ (c.erase v).1.members ≠ c.members)
  push : ∀ v, (∀ u ∈ c.members, u ≤ v) →
    ∃ d, c.push v = .ok d ∧ Updated c d (c.members ∪ {v})
  pushBelow : ∀ v m, IsGreatest c.members m → v < m → c.push v = .error (.pushBelowLast v m)
  insertRange : ∀ range : Span, range.stop ≤ 65536 →
    ∃ d, c.insertRange range = .ok d ∧ Updated c d (c.members ∪ {v | v.toNat ∈ range})
  eraseRange : ∀ range : Span, range.stop ≤ 65536 →
    ∃ d, c.eraseRange range = .ok d ∧ Updated c d (c.members \ {v | v.toNat ∈ range})
  outside : ∀ range : Span, range.start < range.stop → 65536 < range.stop →
    c.insertRange range = .error (.outsideContainer range) ∧
      c.eraseRange range = .error (.outsideContainer range)
  fill : ∃ d, c.insertRange ⟨0, 65536⟩ = .ok d ∧ d.isFull = true ∧ d.members = Set.univ

theorem range_outside (c : Container) {range : Span} (forwards : range.start < range.stop)
    (outside : 65536 < range.stop) : c.insertRange range = .error (.outsideContainer range) ∧
      c.eraseRange range = .error (.outsideContainer range) := by
  have something : ¬ range.isEmpty = true := by simpa [Span.isEmpty] using forwards
  rw [insertRange.eq_def, eraseRange.eq_def, if_neg something, if_neg something]
  exact ⟨if_pos outside, if_pos outside⟩

theorem updates_exact (c : Container) (formed : c.WellFormed) : c.SetUpdates := by
  have mem := formed.mem_members
  constructor
  case insert =>
    intro v
    have inserted := insert_spec c v formed
    have updated : Updated c (c.insert v).1 (c.members ∪ {v}) :=
      inserted.changed.updated fun u => by rw [Set.mem_union, mem, Set.mem_singleton_iff]
    refine ⟨updated, ?_⟩
    rw [updated.members, inserted.added_iff, ne_eq, Set.union_eq_left, Set.singleton_subset_iff, mem]
  case erase =>
    intro v
    have erased := erase_spec c v formed
    have updated : Updated c (c.erase v).1 (c.members \ {v}) := by
      have changed : Changed c (c.erase v).1 _ := ⟨erased.formed, erased.mem_iff, erased.canonical⟩
      exact changed.updated fun u => by
        rw [Set.mem_sdiff, mem, Set.mem_singleton_iff, and_comm]
    refine ⟨updated, ?_⟩
    rw [updated.members, erased.removed_iff, ne_eq, sdiff_eq_left, Set.disjoint_singleton_right, mem,
      not_not]
  case push =>
    intro v last
    have inserted := insert_spec c v formed
    refine ⟨(c.insert v).1, push_eq formed v fun u member => last u ((mem u).mpr member), ?_⟩
    exact inserted.changed.updated fun u => by rw [Set.mem_union, mem, Set.mem_singleton_iff]
  case pushBelow =>
    intro v m greatest below
    obtain ⟨top, found, most⟩ := exists_max? formed ((mem m).mp greatest.1)
    have same : top = m := by
      apply UInt16.le_antisymm _ most
      exact greatest.2 ((mem top).mpr (max?_spec formed top found).1)
    rw [same] at found
    exact push_error c v m found below
  case insertRange =>
    intro range inside
    obtain ⟨d, done, changed⟩ := insertRange_spec formed range inside
    exact ⟨d, done, changed.updated fun v => by rw [Set.mem_union, mem]; rfl⟩
  case eraseRange =>
    intro range inside
    obtain ⟨d, done, changed⟩ := eraseRange_spec formed range inside
    exact ⟨d, done, changed.updated fun v => by rw [Set.mem_sdiff, mem]; rfl⟩
  case outside => exact fun range => c.range_outside
  case fill =>
    obtain ⟨d, done, changed⟩ := insertRange_spec formed ⟨0, 65536⟩ (Nat.le_refl _)
    have all (v : UInt16) : v ∈ d := (changed.mem_iff v).mpr (Or.inr (mem_span_full v))
    refine ⟨d, done, changed.formed.isFull_of_forall_mem all, ?_⟩
    exact Set.eq_univ_of_forall fun v => (changed.formed.mem_members v).mpr (all v)

/-- The ends of the domain, as a list, as bits that are too few, and as runs. -/
theorem updates_exact_at_ends :
    let list := array ⟨#[0, 65535]⟩
    let few := bits (.ofSortedValues #[0, 65535])
    let ends := runs ⟨#[⟨0, 0⟩, ⟨65535, 0⟩]⟩
    list.SetUpdates ∧ few.SetUpdates ∧ ends.SetUpdates :=
  ⟨updates_exact _ (by decide), updates_exact _ (BitSet.wellFormed_ofWords _),
    updates_exact _ (by decide)⟩

end Roaring.Container
