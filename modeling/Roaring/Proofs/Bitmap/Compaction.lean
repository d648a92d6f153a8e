import Mathlib.Algebra.GroupWithZero.Nat
import Roaring.Proofs.Bitmap.Update

/-! Removing a range compacts the entries that it reaches within their array. Whatever the swaps do to
the entries that have become empty, the others end up in their old order, in front of them. -/
namespace Roaring.Bitmap

variable {g : Grade} {range : Span}

theorem lowRange_stop_le (range : Span) (key : Nat) : (lowRange range key).stop ≤ 65536 := by
  rw [lowRange]
  simp only
  omega

/-- What a range leaves in the container of an entry. -/
def cut (range : Span) (e : Entry) : Container :=
  match e.container.eraseRange (lowRange range e.key.toNat) with
  | .ok c => c
  | .error _ => e.container

theorem cut_spec (range : Span) {e : Entry} (formed : e.container.WellFormed) :
    e.container.eraseRange (lowRange range e.key.toNat) = .ok (cut range e) ∧
      Container.Changed e.container (cut range e)
        (fun low => low ∈ e.container ∧ low.toNat ∉ lowRange range e.key.toNat) := by
  obtain ⟨c, done, changed⟩ :=
    Container.eraseRange_spec formed (lowRange range e.key.toNat) (lowRange_stop_le range _)
  have same : cut range e = c := by rw [cut, done]
  rw [same]
  exact ⟨done, changed⟩

theorem cut_of_isEmpty {range : Span} (e : Entry)
    (nothing : (lowRange range e.key.toNat).isEmpty = true) : cut range e = e.container := by
  rw [cut, Container.eraseRange_of_isEmpty e.container nothing]

def cutAll (range : Span) (entries : List Entry) : List Entry :=
  entries.flatMap fun e => slot e.key (cut range e)

theorem cutAll_cons (e : Entry) (entries : List Entry) :
    cutAll range (e :: entries) = slot e.key (cut range e) ++ cutAll range entries :=
  List.flatMap_cons

theorem cutAll_append (ds es : List Entry) :
    cutAll range (ds ++ es) = cutAll range ds ++ cutAll range es := List.flatMap_append

def lost (range : Span) (entries : List Entry) : Nat :=
  (entries.map fun e => e.container.cardinality - (cut range e).cardinality).sum

theorem lost_cons (e : Entry) (entries : List Entry) : lost range (e :: entries) =
    e.container.cardinality - (cut range e).cardinality + lost range entries := List.sum_cons

theorem lost_append (ds es : List Entry) :
    lost range (ds ++ es) = lost range ds + lost range es := by
  rw [lost, List.map_append, List.sum_append, lost, lost]

/-- What the walk does at an entry. -/
theorem compactFrom_step {r : Removal} {e : Entry} {read : Nat} (n : Nat)
    (formed : e.container.WellFormed) (here : r.entries[read]? = some e) :
    compactFrom range (n + 1) read r =
      let entries := r.entries.setIfInBounds read ⟨e.key, cut range e⟩
      let removed := r.removed + (e.container.cardinality - (cut range e).cardinality)
      compactFrom range n (read + 1)
        (if (cut range e).isEmpty then ⟨entries, r.write, removed⟩
        else ⟨entries.swapIfInBounds r.write read, r.write + 1, removed⟩) := by
  rw [compactFrom, here]
  simp only [(cut_spec range formed).1]
  rfl

/-- The walk has put `front` in place, has `passed` the entries that became empty, and is to go on over
`rest`. -/
theorem compactFrom_eq (range : Span) (front passed rest back : List Entry)
    (formed : ∀ e ∈ rest, e.container.WellFormed) (entries : Array Entry) (removed : Nat)
    (parts : entries.toList = front ++ passed ++ rest ++ back) :
    ∃ moved behind,
      compactFrom range rest.length (front.length + passed.length)
          ⟨entries, front.length, removed⟩ =
        .ok ⟨moved, (front ++ cutAll range rest).length, removed + lost range rest⟩ ∧
      moved.toList = front ++ cutAll range rest ++ behind ++ back ∧
      (cutAll range rest).length + behind.length = passed.length + rest.length := by
  induction rest generalizing front passed entries removed with
  | nil =>
    refine ⟨entries, passed, ?_, ?_, ?_⟩
    · rw [List.length_nil, compactFrom, cutAll, List.flatMap_nil, List.append_nil]
      rfl
    · simpa [cutAll] using parts
    · simp [cutAll]
  | cons e rest ih =>
    obtain ⟨formedHead, formedTail⟩ := List.forall_mem_cons.mp formed
    have parts : entries.toList = (front ++ passed) ++ e :: (rest ++ back) := by simp [parts]
    have index : (front ++ passed).length = front.length + passed.length := List.length_append
    have changed := toList_setIfInBounds_of_parts parts index ⟨e.key, cut range e⟩
    rw [List.length_cons, compactFrom_step _ formedHead (getElem?_of_parts parts index),
      cutAll_cons, lost_cons, slot, ← Nat.add_assoc removed]
    simp only
    generalize entries.setIfInBounds _ _ = entries at *
    generalize removed + _ = removed
    split
    · -- the entry joins those that are passed
      obtain ⟨moved, behind, walked, order, size⟩ :=
        ih front (passed ++ [⟨e.key, cut range e⟩]) formedTail entries removed
          (by simpa using changed)
      rw [List.length_append, List.length_singleton] at walked size
      refine ⟨moved, behind, walked, order, ?_⟩
      rw [List.nil_append, size]
      omega
    · -- the entry takes the place of the first one that was passed
      obtain ⟨stale, length, swapped⟩ := toList_swap_of_parts changed rfl
      obtain ⟨moved, behind, walked, order, size⟩ :=
        ih (front ++ [⟨e.key, cut range e⟩]) stale formedTail
          (entries.swapIfInBounds front.length (front.length + passed.length)) removed
          (by simpa using swapped)
      rw [List.length_append, List.length_singleton, length, Nat.add_right_comm] at walked
      rw [List.append_assoc front] at walked order
      refine ⟨moved, behind, walked, order, ?_⟩
      rw [List.length_append, List.length_singleton]
      omega

/-! The entries that are left. -/

theorem mem_cutAll {entries : List Entry} {d : Entry} : d ∈ cutAll range entries ↔
    ∃ e ∈ entries, d = ⟨e.key, cut range e⟩ ∧ (cut range e).isEmpty = false := by
  rw [cutAll, List.mem_flatMap]
  refine exists_congr fun e => and_congr_right fun _ => ?_
  rw [slot]
  split
  · simp [*]
  · simp [*]

theorem keys_cutAll_sublist (entries : List Entry) :
    ((cutAll range entries).map Entry.key).Sublist (entries.map Entry.key) := by
  induction entries with
  | nil => exact List.Sublist.slnil
  | cons e entries ih =>
    rw [cutAll_cons, slot]
    split
    · exact ih.cons e.key
    · exact ih.cons_cons e.key

theorem regular_cutAll {entries : List Entry}
    (ascending : entries.Pairwise (fun d e => d.key < e.key))
    (good : ∀ e ∈ entries, g.Good e.container) : Regular g (cutAll range entries) := by
  refine ⟨?_, fun d member => ?_, fun d member => ?_⟩
  · exact List.pairwise_map.mp
      ((List.pairwise_map.mpr ascending).sublist (keys_cutAll_sublist entries))
  · obtain ⟨e, inside, rfl, -⟩ := mem_cutAll.mp member
    have changed := (cut_spec range (good e inside).formed).2
    exact (good e inside).step changed.formed changed.canonical
  · obtain ⟨e, -, rfl, some⟩ := mem_cutAll.mp member
    exact some

theorem holds_cutAll {entries : List Entry} (formed : ∀ e ∈ entries, e.container.WellFormed)
    (k v : UInt16) : Holds (cutAll range entries) k v ↔
      Holds entries k v ∧ v.toNat ∉ lowRange range k.toNat := by
  induction entries with
  | nil => simp [cutAll]
  | cons e entries ih =>
    obtain ⟨formedHead, formedTail⟩ := List.forall_mem_cons.mp formed
    have changed := (cut_spec range formedHead).2
    rw [cutAll_cons, holds_append, holds_slot e.key _ changed.formed, changed.mem_iff,
      ih formedTail, holds_cons, or_and_right, and_assoc]
    refine or_congr_left (and_congr_right fun same => ?_)
    rw [same]

end Roaring.Bitmap
