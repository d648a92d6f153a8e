import Roaring.Columns.Basic
import Roaring.Proofs.Bitmap.Update

/-! Columns that are in step show one list of entries, and every call on them follows the call on that
list: it answers the same, and leaves the columns of what the other leaves. -/
namespace Roaring

namespace Columns

variable {α β γ : Type} {s t : Columns} {entries : Array Entry}

/-! Calls. -/

theorem run_bind_ok {call : Change α} {next : α → Change β} {a : α} (done : call.run s = .ok a t) :
    (call >>= next).run s = (next a).run t := by
  rw [EStateM.run_bind, done]

theorem run_bind_error {call : Change α} (next : α → Change β) {fault : Fault}
    (failed : call.run s = .error fault t) : (call >>= next).run s = .error fault t := by
  rw [EStateM.run_bind, failed]

theorem run_get_bind (next : Columns → Change α) : (get >>= next).run s = (next s).run s := rfl

theorem run_pure (a : α) : (pure a : Change α).run s = .ok a s := rfl

theorem run_throw (fault : Fault) : (throw fault : Change α).run s = .error fault s := rfl

theorem run_lift_ok {answered : Checked α} {a : α} (done : answered = .ok a) :
    (liftM answered : Change α).run s = .ok a s := by
  rw [done]
  rfl

theorem run_lift_error {answered : Checked α} {fault : Fault} (failed : answered = .error fault) :
    (liftM answered : Change α).run s = .error fault s := by
  rw [failed]
  rfl

theorem editKeys_ok {within : Nat → Bool} (edit : Array UInt16 → Array UInt16)
    (inside : within s.keys.size = true) :
    (editKeys within edit).run s = .ok () { s with keys := edit s.keys } := if_pos inside

theorem editContainers_ok {within : Nat → Bool} (edit : Array Container → Array Container)
    (inside : within s.containers.size = true) :
    (editContainers within edit).run s = .ok () { s with containers := edit s.containers } :=
  if_pos inside

/-! The columns of entries. -/

theorem size_keys : (ofEntries entries).keys.size = entries.size := Array.size_map

theorem size_containers : (ofEntries entries).containers.size = entries.size := Array.size_map

theorem back?_keys : (ofEntries entries).keys.back? = entries.back?.map Entry.key :=
  Array.back?_map

theorem locate_ofEntries (b : Bitmap) (key : UInt16) :
    (ofEntries b.entries).locate key = b.locate key :=
  Search.locate_map b.entries Entry.key _

theorem fetch_of_getElem? {xs : Array α} {i : Nat} {a : α} (here : xs[i]? = some a) :
    fetch xs i = .ok a := by
  rw [fetch, here]

theorem fetch_keys {i : Nat} {e : Entry} (here : entries[i]? = some e) :
    fetch (ofEntries entries).keys i = .ok e.key :=
  fetch_of_getElem? (by rw [ofEntries, Array.getElem?_map, here, Option.map_some])

theorem fetch_containers {i : Nat} {e : Entry} (here : entries[i]? = some e) :
    fetch (ofEntries entries).containers i = .ok e.container :=
  fetch_of_getElem? (by rw [ofEntries, Array.getElem?_map, here, Option.map_some])

theorem keyAt_ofEntries {i : Nat} {e : Entry} (here : entries[i]? = some e) :
    (keyAt i).run (ofEntries entries) = .ok e.key (ofEntries entries) :=
  run_lift_ok (fetch_keys here)

theorem containerAt_ofEntries {i : Nat} {e : Entry} (here : entries[i]? = some e) :
    (containerAt i).run (ofEntries entries) = .ok e.container (ofEntries entries) :=
  run_lift_ok (fetch_containers here)

/-- Both columns are edited as the entries are. -/
theorem edits_ofEntries {within : Nat → Bool} {keys : Array UInt16 → Array UInt16}
    {containers : Array Container → Array Container} (edited : Array Entry)
    (inside : within entries.size = true)
    (first : edited.map Entry.key = keys (entries.map Entry.key))
    (second : edited.map Entry.container = containers (entries.map Entry.container))
    (next : Change α) :
    (editKeys within keys >>= fun _ => editContainers within containers >>= fun _ => next).run
      (ofEntries entries) = next.run (ofEntries edited) := by
  rw [run_bind_ok (editKeys_ok keys (by rwa [size_keys])),
    run_bind_ok (editContainers_ok containers (by rwa [size_containers])), ofEntries, ofEntries,
    first, second]

theorem pushEntry_ofEntries (key : UInt16) (c : Container) :
    (pushEntry key c).run (ofEntries entries) = .ok () (ofEntries (entries.push ⟨key, c⟩)) := by
  rw [ofEntries, ofEntries, Array.map_push, Array.map_push]
  rfl

theorem ofEntries_setIfInBounds {i : Nat} {e : Entry} (c : Container)
    (here : entries[i]? = some e) : ofEntries (entries.setIfInBounds i ⟨e.key, c⟩) =
      { ofEntries entries with
        containers := (ofEntries entries).containers.setIfInBounds i c } := by
  have key : (entries.map Entry.key)[i]? = some e.key := by
    rw [Array.getElem?_map, here, Option.map_some]
  simp only [ofEntries, Array.map_setIfInBounds, setIfInBounds_self key]

theorem changeAt_ok {i : Nat} {e : Entry} {c : Container} {answer : α}
    {change : Container → Checked (Container × α)} (here : entries[i]? = some e)
    (done : change e.container = .ok (c, answer)) :
    (changeAt i change).run (ofEntries entries) =
      .ok answer (ofEntries (entries.setIfInBounds i ⟨e.key, c⟩)) := by
  have inside := (Array.getElem?_eq_some_iff.mp here).1
  rw [changeAt, run_bind_ok (containerAt_ofEntries here), run_bind_ok (run_lift_ok done),
    run_bind_ok (editContainers_ok _ (by simpa [ofEntries] using inside)), run_pure,
    ofEntries_setIfInBounds c here]

theorem changeAt_error {i : Nat} {e : Entry} {fault : Fault}
    {change : Container → Checked (Container × α)} (here : entries[i]? = some e)
    (failed : change e.container = .error fault) :
    (changeAt i change).run (ofEntries entries) = .error fault (ofEntries entries) := by
  rw [changeAt, run_bind_ok (containerAt_ofEntries here), run_bind_error _ (run_lift_error failed)]

/-! Columns in good order. -/

/-- Columns of one length are the columns of the entries that they pair up. -/
theorem ofEntries_toBitmap (paired : s.keys.size = s.containers.size) :
    ofEntries s.toBitmap.entries = s := by
  obtain ⟨⟨keys⟩, ⟨containers⟩⟩ := s
  have same : keys.length = containers.length := paired
  rw [ofEntries, toBitmap]
  simp only [List.zipWith_toArray, List.map_toArray, List.map_zipWith]
  rw [← List.map_uncurry_zip_eq_zipWith, ← List.map_uncurry_zip_eq_zipWith]
  exact congrArg₂ Columns.mk (congrArg _ (List.map_fst_zip same.le))
    (congrArg _ (List.map_snd_zip same.ge))

theorem wellFormed_ofEntries (b : Bitmap) : (ofEntries b.entries).WellFormed ↔ b.WellFormed := by
  constructor
  · intro formed
    refine ⟨?_, fun e member => formed.containers e.container (Array.mem_map_of_mem member)⟩
    have ascending := formed.ascending
    rwa [ofEntries, Array.toList_map, List.pairwise_map] at ascending
  · intro formed
    refine ⟨by rw [size_keys, size_containers], ?_, ?_⟩
    · rw [ofEntries, Array.toList_map, List.pairwise_map]
      exact formed.ascending
    · rw [ofEntries, Array.forall_mem_map]
      exact formed.containers

theorem canonical_ofEntries (b : Bitmap) : (ofEntries b.entries).Canonical ↔ b.Canonical := by
  constructor
  · intro canonical
    exact ⟨(wellFormed_ofEntries b).mp canonical.toWellFormed,
      fun e member => canonical.dense e.container (Array.mem_map_of_mem member)⟩
  · intro canonical
    refine ⟨(wellFormed_ofEntries b).mpr canonical.toWellFormed, ?_⟩
    rw [ofEntries, Array.forall_mem_map]
    exact canonical.dense

theorem WellFormed.exists_entries (formed : s.WellFormed) :
    ∃ b : Bitmap, b.WellFormed ∧ s = ofEntries b.entries := by
  have same := ofEntries_toBitmap formed.paired
  refine ⟨s.toBitmap, ?_, same.symm⟩
  rwa [← wellFormed_ofEntries, same]

/-! Values. -/

/-- The container of a key that is found is changed. -/
theorem changeAt_of_hit {b : Bitmap} {key : UInt16} {i : Nat} (found : b.locate key = .hit i)
    (change : Container → Container × Bool) :
    (changeAt i (fun c => .ok (change c))).run (ofEntries b.entries) =
      .ok (b.changeAt i change).2 (ofEntries (b.changeAt i change).1.entries) := by
  obtain ⟨e, here⟩ := Search.getElem?_of_hit found
  rw [changeAt_ok here rfl, Bitmap.changeAt, here]
  simp

theorem insert_ofEntries (b : Bitmap) (v : UInt32) :
    (insert v).run (ofEntries b.entries) =
      .ok (b.insert v).2 (ofEntries (b.insert v).1.entries) := by
  rw [insert, Bitmap.insert]
  generalize split v = halves
  obtain ⟨key, low⟩ := halves
  simp only
  rw [run_get_bind, back?_keys, Option.all_map]
  split
  · rw [run_bind_ok (pushEntry_ofEntries key (single low))]
    rfl
  · rw [run_get_bind, locate_ofEntries]
    cases place : b.locate key with
    | hit i => exact changeAt_of_hit place _
    | gap i =>
      have inside := Search.le_size_of_gap place
      exact edits_ofEntries (b.entries.insertIdxIfInBounds i ⟨key, single low⟩)
        (decide_eq_true inside) (map_insertIdx _ _ _ _) (map_insertIdx _ _ _ _) (pure true)

theorem getElem?_changeAt {b : Bitmap} {key : UInt16} {i : Nat} (found : b.locate key = .hit i)
    (change : Container → Container × Bool) :
    ∃ e, (b.changeAt i change).1.entries[i]? = some e := by
  obtain ⟨e, here⟩ := Search.getElem?_of_hit found
  have inside := (Array.getElem?_eq_some_iff.mp here).1
  rw [Bitmap.changeAt, here]
  exact ⟨⟨e.key, (change e.container).1⟩, by simp [inside]⟩

theorem erase_ofEntries (b : Bitmap) (v : UInt32) :
    (erase v).run (ofEntries b.entries) =
      .ok (b.erase v).2 (ofEntries (b.erase v).1.entries) := by
  rw [erase, Bitmap.erase]
  generalize split v = halves
  obtain ⟨key, low⟩ := halves
  simp only
  rw [run_get_bind, locate_ofEntries]
  cases place : b.locate key with
  | hit i =>
    obtain ⟨e, here⟩ := getElem?_changeAt place fun c => c.erase low
    simp only
    rw [run_bind_ok (changeAt_of_hit place fun c => c.erase low)]
    generalize b.changeAt i (fun c => c.erase low) = changed at *
    rw [run_bind_ok (containerAt_ofEntries here), Bitmap.dropEmptyAt, here, Option.any_some]
    split
    · have inside := (Array.getElem?_eq_some_iff.mp here).1
      exact edits_ofEntries (changed.1.entries.eraseIdxIfInBounds i) (decide_eq_true inside)
        (map_eraseIdx _ _ _) (map_eraseIdx _ _ _) (pure changed.2)
    · rfl
  | gap i => rfl

/-- What is left and answered is what the call on the entries gives, seen in two columns. -/
def Follows (view : β → Array Entry × α) (result : EStateM.Result Fault Columns α) :
    Checked β → Prop
  | .ok b => result = .ok (view b).2 (ofEntries (view b).1)
  | .error fault => ∃ left, result = .error fault left

/-- A call that answers nothing follows one that makes a bitmap. -/
abbrev FollowsBitmap (result : EStateM.Result Fault Columns Unit) (made : Checked Bitmap) : Prop :=
  Follows (fun b => (b.entries, ())) result made

/-- A value that may not be appended leaves everything as it is. -/
theorem push_ofEntries (b : Bitmap) (v : UInt32) :
    (push v).run (ofEntries b.entries) =
      match b.push v with
      | .ok c => .ok () (ofEntries c.entries)
      | .error fault => .error fault (ofEntries b.entries) := by
  rw [push, Bitmap.push]
  generalize split v = halves
  obtain ⟨key, low⟩ := halves
  simp only
  rw [run_get_bind, back?_keys]
  cases last : b.entries.back? with
  | none => exact pushEntry_ofEntries key (single low)
  | some e =>
    simp only [Option.map_some]
    split
    · rename_i same
      have here : b.entries[b.entries.size - 1]? = some e := by rw [← last, Array.back?]
      have back : (ofEntries b.entries).containers.back? = some e.container := by
        rw [ofEntries, Array.back?_map, last, Option.map_some]
      rw [run_get_bind, back]
      simp only
      split
      · rfl
      · rw [run_get_bind, size_containers]
        cases done : e.container.push low with
        | error fault => exact changeAt_error here (by rw [done]; rfl)
        | ok c =>
          rw [changeAt_ok here (by rw [done]; rfl), ← push_pop last, same]
          rfl
    · split
      · exact pushEntry_ofEntries key (single low)
      · rfl

theorem extend_ofEntries (b : Bitmap) (values : Array UInt32) :
    (extend values).run (ofEntries b.entries) = .ok () (ofEntries (b.extend values).entries) := by
  rw [extend, Bitmap.extend, ← Array.foldl_toList]
  induction values.toList generalizing b with
  | nil => rfl
  | cons v list ih =>
    rw [List.forM, bind_assoc, run_bind_ok (insert_ofEntries b v), pure_bind]
    exact ih (b.insert v).1

theorem pushAll_follows (b : Bitmap) (values : Array UInt32) :
    FollowsBitmap ((pushAll values).run (ofEntries b.entries)) (values.foldlM Bitmap.push b) := by
  rw [pushAll, ← Array.foldlM_toList]
  induction values.toList generalizing b with
  | nil => exact rfl
  | cons v list ih =>
    rw [List.forM, List.foldlM_cons]
    have first := push_ofEntries b v
    cases pushed : b.push v with
    | error fault =>
      rw [pushed] at first
      exact ⟨_, run_bind_error _ first⟩
    | ok c =>
      rw [pushed] at first
      rw [run_bind_ok first]
      exact ih c

end Columns

end Roaring
