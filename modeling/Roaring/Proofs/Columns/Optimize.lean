import Roaring.Proofs.Bitmap.Optimize
import Roaring.Proofs.Columns.Algebra

/-! Passes over columns that re-encode containers. They walk the containers by index and never touch a
key; a pass over entries makes new entries, with the old keys. -/
namespace Roaring.Columns

variable {entries : Array Entry} {front rest : List Entry}

theorem mapM_toList_of_ok {α β : Type} {f : α → Checked β} {xs : Array α} {ys : Array β}
    (done : xs.mapM f = .ok ys) : xs.toList.mapM f = .ok ys.toList := by
  rw [Array.mapM_eq_mapM_toList] at done
  cases each : xs.toList.mapM f with
  | error fault =>
    rw [each] at done
    contradiction
  | ok list =>
    rw [each] at done
    cases done
    rfl

theorem ofEntries_of_parts (parts : entries.toList = front ++ []) :
    ofEntries entries = ofEntries front.toArray := by
  rw [← entries.toArray_toList, parts, List.append_nil]

theorem removeRunsFrom_ofEntries (results : List (Entry × Bool)) (changed : Bool)
    (parts : entries.toList = front ++ rest)
    (done : rest.mapM Bitmap.entryWithoutRuns = .ok results) :
    (removeRunsFrom rest.length front.length changed).run (ofEntries entries) =
      .ok (changed || results.any Prod.snd)
        (ofEntries (front ++ results.map Prod.fst).toArray) := by
  induction rest generalizing entries front results changed with
  | nil =>
    cases done
    rw [List.length_nil, removeRunsFrom, run_pure, ofEntries_of_parts parts]
    simp
  | cons e rest ih =>
    rw [List.mapM_cons] at done
    obtain ⟨⟨first, here⟩, encoded, done⟩ := bind_eq_ok.mp done
    obtain ⟨later, others, done⟩ := bind_eq_ok.mp done
    cases done
    obtain ⟨⟨c, flag⟩, removed, same⟩ := bind_eq_ok.mp encoded
    cases same
    have next := toList_setIfInBounds_of_parts parts rfl ⟨e.key, c⟩
    rw [List.append_cons] at next
    have walked := ih later (changed || here) next others
    rw [List.length_append, List.length_singleton] at walked
    rw [List.length_cons, removeRunsFrom,
      run_bind_ok (changeAt_ok (getElem?_of_parts parts rfl) removed), walked]
    simp [Bool.or_assoc]

theorem removeRunCompression_ofEntries {b c : Bitmap} {changed : Bool}
    (done : b.removeRunCompression = .ok (c, changed)) :
    removeRunCompression.run (ofEntries b.entries) = .ok changed (ofEntries c.entries) := by
  obtain ⟨results, walked, same⟩ := bind_eq_ok.mp done
  cases same
  have run := removeRunsFrom_ofEntries results.toList false (List.nil_append b.entries.toList).symm
    (mapM_toList_of_ok walked)
  rw [removeRunCompression, run_get_bind, size_containers]
  simpa [← Array.toList_map] using run

/-! Choosing encodings. -/

theorem hasRuns_ofEntries (b : Bitmap) : (ofEntries b.entries).hasRuns = b.hasRuns :=
  Array.any_map

theorem plannedKinds_ofEntries (b : Bitmap) :
    (ofEntries b.entries).plannedKinds = b.plannedKinds := by
  have size : (ofEntries b.entries).serializedSize = b.serializedSize := by
    rw [serializedSize, Bitmap.serializedSize, hasRuns_ofEntries, size_keys, ofEntries]
    simp only [Array.foldl_map, Bitmap.containerCount]
  have sizeAs (kinds : Array Kind) :
      (ofEntries b.entries).serializedSizeAs kinds = b.serializedSizeAs kinds := by
    rw [serializedSizeAs, Bitmap.serializedSizeAs, size_keys, ofEntries]
    simp only [Array.zip_map_left, Array.foldl_map, Bitmap.containerCount]
    rfl
  rw [plannedKinds, Bitmap.plannedKinds, size]
  simp only [sizeAs]
  rw [ofEntries, Bitmap.optimalKinds]
  simp only [Array.map_map, Array.zip_map_left]
  rfl

def entryAs (e : Entry) (kind : Kind) : Checked Entry :=
  return ⟨e.key, ← e.container.convertTo kind⟩

/-- Converting to the own encoding is passed over here, and gives the container itself there. -/
theorem convertFrom_ofEntries (kinds : List Kind) (converted : Nat) (results : List Entry)
    (parts : entries.toList = front ++ rest) (same : kinds.length = rest.length)
    (done : (rest.zip kinds).mapM (fun p => entryAs p.1 p.2) = .ok results) :
    (convertFrom kinds front.length converted).run (ofEntries entries) =
      .ok (converted + (rest.zip kinds).countP fun p => p.1.container.kind != p.2)
        (ofEntries (front ++ results).toArray) := by
  induction rest generalizing entries front results kinds converted with
  | nil =>
    obtain rfl := List.length_eq_zero_iff.mp same
    cases done
    rw [convertFrom, run_pure, ofEntries_of_parts parts]
    simp
  | cons e rest ih =>
    obtain ⟨kind, kinds, rfl⟩ := List.exists_cons_of_length_eq_add_one same
    rw [List.zip_cons_cons, List.mapM_cons] at done
    obtain ⟨first, encoded, done⟩ := bind_eq_ok.mp done
    obtain ⟨later, others, done⟩ := bind_eq_ok.mp done
    cases done
    obtain ⟨c, made, again⟩ := bind_eq_ok.mp encoded
    cases again
    have here := getElem?_of_parts parts rfl
    have next := toList_setIfInBounds_of_parts parts rfl ⟨e.key, c⟩
    rw [List.append_cons] at next
    have walked (n : Nat) := ih kinds n later next (Nat.succ.inj same) others
    simp only [List.length_append, List.length_singleton] at walked
    rw [convertFrom, run_bind_ok (containerAt_ofEntries here)]
    split
    · rename_i own
      have whole : entries.setIfInBounds front.length ⟨e.key, c⟩ = entries := by
        rw [Container.convertTo.eq_def, if_pos own] at made
        rw [← Except.ok.inj made]
        exact setIfInBounds_self here
      rw [whole] at walked
      rw [walked]
      simp [own]
    · rename_i other
      rw [run_bind_ok (changeAt_ok here (by rw [made]; rfl)), walked]
      simp [other, Nat.add_assoc, Nat.add_comm]

theorem runOptimize_ofEntries {b : Bitmap} {o : Bitmap.Optimized} (done : b.runOptimize = .ok o) :
    runOptimize.run (ofEntries b.entries) =
      .ok (o.leftRuns, o.converted) (ofEntries o.bitmap.entries) := by
  obtain ⟨results, walked, same⟩ := bind_eq_ok.mp done
  cases same
  have each := mapM_toList_of_ok walked
  rw [Array.toList_zip] at each
  have run := convertFrom_ofEntries b.plannedKinds.toList 0 results.toList
    (List.nil_append b.entries.toList).symm (by simp [Bitmap.plannedKinds_eq]) each
  rw [List.length_nil, Nat.zero_add, List.nil_append, results.toArray_toList] at run
  rw [runOptimize, run_get_bind, plannedKinds_ofEntries, run_bind_ok run, run_get_bind,
    hasRuns_ofEntries ⟨results⟩, ← Array.toList_zip, Array.countP_toList]
  rfl

end Roaring.Columns
