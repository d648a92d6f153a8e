import Roaring.Proofs.Bitmap.Ranges
import Roaring.Proofs.Columns.Update

/-! Range updates of columns. What they do to the two columns one after the other comes to the same as
one change of the entries. -/
namespace Roaring.Columns

variable {α : Type} {entries : Array Entry}

theorem lowRange_eq {range : Span} {key : Nat} (reached : key * 65536 ≤ range.stop) :
    lowRange range key = .ok (Bitmap.lowRange range key) := by
  rw [lowRange, minus_of_le (Nat.le_max_right _ _), ok_bind, minus_of_le (by omega), ok_bind]
  rfl

theorem mapM_eq_map {β : Type} {f : α → Checked β} {g : α → β} {xs : List α}
    (each : ∀ x ∈ xs, f x = .ok (g x)) : xs.mapM f = .ok (xs.map g) := by
  induction xs with
  | nil => rfl
  | cons x xs ih =>
    obtain ⟨first, rest⟩ := List.forall_mem_cons.mp each
    rw [List.mapM_cons, first, ih rest]
    rfl

theorem keyRanges_eq {range : Span} (forwards : range.start < range.stop) :
    keyRanges range = .ok (Bitmap.keyRanges range) := by
  rw [keyRanges, minus_of_le (by omega), ok_bind, Bitmap.keyRanges]
  apply mapM_eq_map
  intro key member
  rw [List.mem_range'_1] at member
  rw [lowRange_eq (by omega), ok_bind]
  rfl

theorem keyBounds_ofEntries (b : Bitmap) (range : Span) :
    (ofEntries b.entries).keyBounds range = b.keyBounds range := by
  rw [keyBounds, Bitmap.keyBounds, ofEntries]
  simp only [Search.partitionPoint_map, Search.partitionPointFrom_map]

theorem insertRange_grows {c d : Container} {range : Span} (formed : c.WellFormed)
    (done : c.insertRange range = .ok d) : c.cardinality ≤ d.cardinality := by
  by_cases inside : range.stop ≤ Container.domain
  · obtain ⟨e, added, changed⟩ := Container.insertRange_spec formed range inside
    obtain rfl : d = e := Except.ok.inj (done.symm.trans added)
    exact formed.cardinality_le changed.formed fun v old => (changed.mem_iff v).mpr (Or.inl old)
  · rw [Container.insertRange.eq_def] at done
    split at done
    · exact Nat.le_of_eq (congrArg _ (Except.ok.inj done))
    · rw [if_pos (Nat.lt_of_not_le inside)] at done
      contradiction

/-- Filling puts out in two columns what it puts out as entries. -/
theorem fill_eq (parts : List (UInt16 × Span)) (existing : List Entry) (out all : Array Entry)
    (added total : Nat) (formed : ∀ e ∈ existing, e.container.WellFormed)
    (done : Bitmap.fillOnto parts existing out added = .ok (all, total)) :
    fill parts (existing.map fun e => (e.key, e.container))
        ⟨out.map Entry.key, out.map Entry.container, added⟩ =
      .ok ⟨all.map Entry.key, all.map Entry.container, total⟩ := by
  induction parts, existing, out, added using Bitmap.fillOnto.induct with
  | case1 existing out added =>
    rw [Bitmap.fillOnto] at done
    obtain ⟨rfl, rfl⟩ := Prod.mk.inj (Except.ok.inj done)
    rw [fill]
  | case2 key low parts out added ih =>
    rw [Bitmap.fillOnto] at done
    obtain ⟨c, made, rest⟩ := bind_eq_ok.mp done
    rw [List.map_nil, fill, made, ok_bind]
    simpa using ih c formed rest
  | case3 low parts e existing out added ih =>
    obtain ⟨formedHead, formedTail⟩ := List.forall_mem_cons.mp formed
    rw [Bitmap.fillOnto, if_pos rfl] at done
    obtain ⟨c, made, rest⟩ := bind_eq_ok.mp done
    rw [List.map_cons, fill, if_pos rfl, made, ok_bind,
      minus_of_le (insertRange_grows formedHead made), ok_bind]
    simpa using ih c formedTail rest
  | case4 key low parts e existing out added other ih =>
    rw [Bitmap.fillOnto, if_neg other] at done
    obtain ⟨c, made, rest⟩ := bind_eq_ok.mp done
    rw [List.map_cons, fill, if_neg other, made, ok_bind]
    simpa using ih c formed rest

section

variable {front middle back : List Entry} {lo hi : Nat}
  (parts : entries.toList = front ++ middle ++ back) (indexLow : front.length = lo)
  (indexHigh : lo + middle.length = hi)
include parts indexLow indexHigh

theorem le_of_parts : lo ≤ hi ∧ hi ≤ entries.size := by
  have size := congrArg List.length parts
  simp only [List.length_append, Array.length_toList] at size
  omega

theorem stretch_map (f : Entry → α) :
    stretch (entries.map f) lo hi = .ok ((entries.extract lo hi).map f) := by
  obtain ⟨forwards, inside⟩ := le_of_parts parts indexLow indexHigh
  rw [stretch_of_le forwards (by rwa [Array.size_map]), Array.map_extract]

theorem drainContainers_ofEntries : (drainContainers lo hi).run (ofEntries entries) =
    .ok ((entries.extract lo hi).map Entry.container)
      ⟨entries.map Entry.key, splice (entries.map Entry.container) lo hi #[]⟩ := by
  obtain ⟨forwards, inside⟩ := le_of_parts parts indexLow indexHigh
  have taken : stretch (ofEntries entries).containers lo hi = _ :=
    stretch_map parts indexLow indexHigh Entry.container
  rw [drainContainers, run_get_bind, run_bind_ok (run_lift_ok taken),
    run_bind_ok (editContainers_ok _ (by rw [size_containers]; simp [forwards, inside])), run_pure]
  rfl

/-- The containers are drained and put back under other indices than the keys, to the same end. -/
theorem refill_ofEntries {ranges : List (UInt16 × Span)} {all : Array Entry} {added : Nat}
    (formed : ∀ e ∈ middle, e.container.WellFormed)
    (filled : Bitmap.fillOnto ranges middle #[] 0 = .ok (all, added)) :
    (refill ranges lo hi).run (ofEntries entries) =
      .ok added (ofEntries (splice entries lo hi all)) := by
  obtain ⟨forwards, inside⟩ := le_of_parts parts indexLow indexHigh
  have containers : (entries.map Entry.container).toList = front.map Entry.container ++
      middle.map Entry.container ++ back.map Entry.container := by
    rw [Array.toList_map, parts, List.map_append, List.map_append]
  have taken : stretch (ofEntries entries).keys lo hi = _ :=
    stretch_map parts indexLow indexHigh Entry.key
  have existing : (((entries.extract lo hi).map Entry.key).zip
      ((entries.extract lo hi).map Entry.container)).toList =
        middle.map fun e => (e.key, e.container) := by
    rw [Array.zip_map', Array.toList_map, toList_extract_of_parts parts indexLow indexHigh]
  have out := fill_eq ranges middle #[] all 0 added formed filled
  rw [← existing, Array.map_empty, Array.map_empty] at out
  have drained : splice (splice (entries.map Entry.container) lo hi #[]) lo lo _ = _ :=
    splice_splice containers ((List.length_map _).trans indexLow) (by rwa [List.length_map])
      (all.map Entry.container)
  have room : lo ≤ (splice (entries.map Entry.container) lo hi #[]).size := by
    simp only [splice, Array.size_append, Array.size_extract, Array.size_map]
    omega
  rw [refill, run_get_bind, run_bind_ok (run_lift_ok taken),
    run_bind_ok (drainContainers_ofEntries parts indexLow indexHigh), run_bind_ok (run_lift_ok out),
    run_bind_ok (editKeys_ok _ (by simp [forwards, inside])),
    run_bind_ok (editContainers_ok _ (decide_eq_true room)), run_pure, drained, ofEntries,
    map_splice, map_splice]

end

theorem insertRange_ofEntries {b : Bitmap} (formed : b.WellFormed) (range : Span) :
    (insertRange range).run (ofEntries b.entries) =
      match b.insertRange range with
      | .ok (c, added) => .ok added (ofEntries c.entries)
      | .error fault => .error fault (ofEntries b.entries) := by
  by_cases inside : range.stop ≤ Bitmap.domain
  · have regular := Bitmap.wellFormed_iff.mp formed
    obtain ⟨c, added, done, -⟩ := Bitmap.insertRange_spec regular range inside
    rw [done]
    rw [Bitmap.insertRange] at done
    rw [insertRange]
    split
    · rename_i nothing
      rw [if_pos nothing] at done
      rw [← (Prod.mk.inj (Except.ok.inj done)).1, ← (Prod.mk.inj (Except.ok.inj done)).2]
      rfl
    · rename_i something
      have forwards : range.start < range.stop := by simpa [Span.isEmpty] using something
      obtain ⟨front, middle, back, parts, indexLow, indexHigh, -⟩ :=
        Bitmap.keyBounds_spec regular.ascending range forwards
      rw [if_neg something, if_neg (Nat.not_lt.mpr inside)] at done
      rw [if_neg (Nat.not_lt.mpr inside), run_get_bind, keyBounds_ofEntries]
      generalize b.keyBounds range = bounds at *
      obtain ⟨lo, hi⟩ := bounds
      simp only at indexLow indexHigh done ⊢
      rw [toList_extract_of_parts parts indexLow indexHigh] at done
      obtain ⟨⟨all, total⟩, filled, same⟩ := bind_eq_ok.mp done
      obtain ⟨rfl, rfl⟩ := Prod.mk.inj (Except.ok.inj same)
      rw [run_bind_ok (run_lift_ok (keyRanges_eq forwards))]
      refine refill_ofEntries parts indexLow indexHigh (fun e member => ?_) filled
      apply (regular.good e _).formed
      rw [parts]
      exact List.mem_append_left back (List.mem_append_right front member)
  · rw [insertRange, Bitmap.insertRange]
    split
    · rfl
    · have outside := Nat.lt_of_not_le inside
      rw [if_pos outside, if_pos outside, run_throw]

/-- What the `n` entries from an index on are asked for: values in good order, under keys at which the
range has not ended. -/
def Ahead (range : Span) (entries : Array Entry) (read n : Nat) : Prop :=
  ∀ i, read ≤ i → i < read + n →
    ∃ e, entries[i]? = some e ∧ e.container.WellFormed ∧ e.key.toNat * 65536 ≤ range.stop

/-- A turn of the loop leaves the entries ahead of it alone, and swaps both columns alike. -/
theorem compactFrom_ofEntries {range : Span} (n read : Nat) (r settled : Bitmap.Removal)
    (ahead : Ahead range r.entries read n) (behind : r.write ≤ read)
    (done : Bitmap.compactFrom range n read r = .ok settled) :
    (compactFrom range n read r.write r.removed).run (ofEntries r.entries) =
      .ok (settled.write, settled.removed) (ofEntries settled.entries) := by
  induction n generalizing read r with
  | zero =>
    rw [Bitmap.compactFrom] at done
    rw [← Except.ok.inj done, compactFrom, run_pure]
  | succ n ih =>
    obtain ⟨e, here, formed, reached⟩ := ahead read (Nat.le_refl _) (by omega)
    have inside := (Array.getElem?_eq_some_iff.mp here).1
    obtain ⟨erased, changed⟩ := Bitmap.cut_spec range formed
    have fewer : (Bitmap.cut range e).cardinality ≤ e.container.cardinality :=
      changed.formed.cardinality_le formed fun v kept => ((changed.mem_iff v).mp kept).1
    rw [Bitmap.compactFrom_step n formed here] at done
    simp only at done
    have kept (i : Nat) (later : read < i) :
        (r.entries.setIfInBounds read ⟨e.key, Bitmap.cut range e⟩)[i]? = r.entries[i]? :=
      Array.getElem?_setIfInBounds_ne (Nat.ne_of_lt later)
    have now : (r.entries.setIfInBounds read ⟨e.key, Bitmap.cut range e⟩)[read]? =
        some ⟨e.key, Bitmap.cut range e⟩ := Array.getElem?_setIfInBounds_self_of_lt inside
    rw [compactFrom, run_bind_ok (keyAt_ofEntries here), run_bind_ok (run_lift_ok (lowRange_eq reached)),
      run_bind_ok (containerAt_ofEntries here),
      run_bind_ok (changeAt_ok here (by rw [erased]; rfl)), run_bind_ok (containerAt_ofEntries now),
      run_bind_ok (run_lift_ok (minus_of_le fewer))]
    generalize r.entries.setIfInBounds read _ = entries at *
    simp only at done ⊢
    split at done
    · rename_i nothing
      rw [if_pos nothing]
      refine ih (read + 1) ⟨entries, r.write, _⟩ (fun i low high => ?_) (by simp only; omega) done
      simp only
      rw [kept i low]
      exact ahead i (by omega) (by omega)
    · rename_i something
      have room := (Array.getElem?_eq_some_iff.mp now).1
      rw [if_neg something]
      refine (edits_ofEntries (entries.swapIfInBounds r.write read) ?_ ?_ ?_ _).trans ?_
      · exact decide_eq_true ⟨Nat.lt_of_le_of_lt behind room, room⟩
      · exact map_swapIfInBounds _ _ _ _
      · exact map_swapIfInBounds _ _ _ _
      have aheadSwapped : Ahead range (entries.swapIfInBounds r.write read) (read + 1) n := by
        intro i low high
        rw [getElem?_swapIfInBounds_of_ne (by omega) (by omega), kept i low]
        exact ahead i (by omega) (by omega)
      exact ih (read + 1) ⟨_, r.write + 1, _⟩ aheadSwapped (Nat.succ_le_succ behind) done

theorem ahead_of_window {range : Span} {front middle back : List Entry} {lo hi : Nat}
    (parts : entries.toList = front ++ middle ++ back) (indexLow : front.length = lo)
    (indexHigh : lo + middle.length = hi) (formed : ∀ e ∈ middle, e.container.WellFormed)
    (window : Bitmap.Window range front middle back) : Ahead range entries lo (hi - lo) := by
  subst indexLow indexHigh
  intro i low high
  have inside : i - front.length < middle.length := by omega
  refine ⟨middle[i - front.length], ?_, formed _ (List.getElem_mem inside), ?_⟩
  · rw [← Array.getElem?_toList, parts, List.append_assoc, List.getElem?_append_right low,
      List.getElem?_append_left inside, List.getElem?_eq_getElem inside]
  · have := window.between _ (List.getElem_mem inside)
    omega

theorem eraseRange_ofEntries {b : Bitmap} (formed : b.WellFormed) (range : Span) :
    ∃ c removed, b.eraseRange range = .ok (c, removed) ∧
      (eraseRange range).run (ofEntries b.entries) = .ok removed (ofEntries c.entries) := by
  have regular := Bitmap.wellFormed_iff.mp formed
  obtain ⟨c, removed, done, -⟩ := Bitmap.eraseRange_spec regular range
  refine ⟨c, removed, done, ?_⟩
  rw [Bitmap.eraseRange] at done
  rw [eraseRange]
  generalize Bitmap.clamped range = range at *
  simp only at done ⊢
  split at done
  · rename_i nothing
    rw [if_pos nothing]
    obtain ⟨rfl, rfl⟩ := Prod.mk.inj (Except.ok.inj done)
    rfl
  · rename_i something
    obtain ⟨front, middle, back, parts, indexLow, indexHigh, window⟩ :=
      Bitmap.keyBounds_spec regular.ascending range (by simpa [Span.isEmpty] using something)
    rw [if_neg something, run_get_bind, keyBounds_ofEntries]
    generalize b.keyBounds range = bounds at *
    obtain ⟨lo, hi⟩ := bounds
    simp only at indexLow indexHigh done ⊢
    obtain ⟨r, walked, same⟩ := bind_eq_ok.mp done
    obtain ⟨rfl, rfl⟩ := Prod.mk.inj (Except.ok.inj same)
    have formedMiddle (e : Entry) (member : e ∈ middle) : e.container.WellFormed := by
      apply (regular.good e _).formed
      rw [parts]
      exact List.mem_append_left back (List.mem_append_right front member)
    have ahead := ahead_of_window parts indexLow indexHigh formedMiddle window
    rw [run_bind_ok (compactFrom_ofEntries _ _ _ _ ahead (Nat.le_refl lo) walked)]
    -- the entries that stay and those that have become empty fill the window
    have room : r.write ≤ hi ∧ hi ≤ r.entries.size := by
      obtain ⟨moved, behind, again, order, size⟩ := Bitmap.compactFrom_eq range front [] middle back
        formedMiddle b.entries 0 (by rw [List.append_nil, parts])
      subst indexLow indexHigh
      rw [Nat.add_sub_cancel_left] at walked
      rw [List.length_nil, Nat.add_zero, walked, Except.ok.injEq] at again
      have length := congrArg List.length order
      simp only [List.length_append, Array.length_toList, List.length_nil] at length size
      rw [again]
      simp only [List.length_append]
      omega
    refine edits_ofEntries (splice r.entries r.write hi #[]) ?_ ?_ ?_ (pure r.removed)
    · exact decide_eq_true room
    · rw [map_splice, Array.map_empty]
    · rw [map_splice, Array.map_empty]

end Roaring.Columns
