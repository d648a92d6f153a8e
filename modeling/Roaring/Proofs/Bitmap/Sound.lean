import Roaring.Proofs.Bitmap.Reachable

/-! Bitmaps in which a key may stand over an empty container. No call makes one out of a well-formed
bitmap, but bytes can; the calls answer for these bitmaps too, and keep the keys ascending and the
containers good. -/
namespace Roaring.Bitmap

variable {g : Grade} {b : Bitmap}

/-- Ascending keys, with a container of the grade under each that may hold nothing. -/
structure Sound (g : Grade) (entries : List Entry) : Prop where
  ascending : entries.Pairwise (fun d e => d.key < e.key)
  good : ∀ e ∈ entries, g.Good e.container

theorem Regular.sound {entries : List Entry} (regular : Regular g entries) : Sound g entries :=
  ⟨regular.ascending, regular.good⟩

variable {front middle back : List Entry} {e : Entry}

theorem Sound.sublist {ds es : List Entry} (sound : Sound g es) (fewer : ds.Sublist es) :
    Sound g ds :=
  ⟨sound.ascending.sublist fewer, fun d member => sound.good d (fewer.subset member)⟩

theorem Sound.eq_of_key {entries : List Entry} (sound : Sound g entries) {d e : Entry}
    (inD : d ∈ entries) (inE : e ∈ entries) (same : d.key = e.key) : d = e := by
  have distinct : (entries.map Entry.key).Nodup :=
    List.pairwise_map.mpr (sound.ascending.imp UInt16.ne_of_lt)
  exact List.inj_on_of_nodup_map distinct inD inE same

theorem Sound.head_good (sound : Sound g (front ++ e :: back)) : g.Good e.container :=
  sound.good e (List.mem_append_right front List.mem_cons_self)

theorem Sound.between (sound : Sound g (front ++ back)) (good : g.Good e.container)
    (before : ∀ d ∈ front, d.key < e.key) (behind : ∀ d ∈ back, e.key < d.key) :
    Sound g (front ++ e :: back) := by
  obtain ⟨first, last, apart⟩ := List.pairwise_append.mp sound.ascending
  constructor
  · refine List.pairwise_append.mpr ⟨first, List.pairwise_cons.mpr ⟨behind, last⟩, ?_⟩
    exact fun d early => List.forall_mem_cons.mpr ⟨before d early, apart d early⟩
  · rw [List.forall_mem_append, List.forall_mem_cons]
    exact ⟨fun d early => sound.good d (List.mem_append_left back early), good,
      fun d late => sound.good d (List.mem_append_right front late)⟩

theorem Sound.replace (sound : Sound g (front ++ e :: back)) {c : Container} (good : g.Good c) :
    Sound g (front ++ ⟨e.key, c⟩ :: back) := by
  obtain ⟨-, last, apart⟩ := List.pairwise_append.mp sound.ascending
  apply (sound.sublist (List.Sublist.append_left (List.sublist_cons_self e back) front)).between good
  · exact fun d early => apart d early e List.mem_cons_self
  · exact (List.pairwise_cons.mp last).1

theorem Sound.slot (sound : Sound g (front ++ e :: back)) {c : Container} (good : g.Good c) :
    Sound g (front ++ slot e.key c ++ back) := by
  apply (sound.replace good).sublist
  rw [Bitmap.slot]
  split
  · rw [List.append_nil]
    exact List.Sublist.append_left (List.sublist_cons_self _ back) front
  · rw [List.append_assoc, List.singleton_append]

/-! Single values. -/

theorem sound_insert (sound : Sound g b.entries.toList) (v : UInt32) :
    Sound g (b.insert v).1.entries.toList := by
  rcases insert_cases sound.ascending v with
    ⟨front, e, back, parts, -, changed, -⟩ | ⟨front, back, parts, before, behind, grown, -⟩
  · rw [parts] at sound
    rw [changed]
    have inserted := Container.insert_spec e.container (split v).2 sound.head_good.formed
    exact sound.replace (sound.head_good.step inserted.formed inserted.canonical)
  · rw [parts] at sound
    rw [grown]
    exact sound.between (Grade.good_of_canonical (entryOf_spec _ _).1) before behind

theorem sound_erase (sound : Sound g b.entries.toList) (v : UInt32) :
    Sound g (b.erase v).1.entries.toList := by
  rcases erase_cases sound.ascending v with ⟨front, e, back, parts, -, changed, -⟩ | ⟨-, unchanged⟩
  · rw [parts] at sound
    rw [changed]
    have erased := Container.erase_spec e.container (split v).2 sound.head_good.formed
    exact sound.slot (sound.head_good.step erased.formed erased.canonical)
  · rw [unchanged]
    exact sound

theorem sound_extend (values : Array UInt32) (sound : Sound g b.entries.toList) :
    Sound g (b.extend values).entries.toList := by
  rw [extend, ← Array.foldl_toList]
  induction values.toList generalizing b with
  | nil => exact sound
  | cons v values ih => exact ih (sound_insert sound v)

/-! Ranges. -/

/-- A walk adds good containers to its output, under some of the keys and in their order. -/
def Puts (g : Grade) (walk : Checked (Array Entry × Nat)) (out : Array Entry)
    (keys : List UInt16) : Prop :=
  ∃ all count kept, walk = .ok (all, count) ∧ all.toList = out.toList ++ kept ∧
    (kept.map Entry.key).Sublist keys ∧ ∀ e ∈ kept, g.Good e.container

theorem puts_nothing (out : Array Entry) (count : Nat) (keys : List UInt16) :
    Puts g (.ok (out, count)) out keys :=
  ⟨out, count, [], rfl, (List.append_nil _).symm, List.nil_sublist keys, by simp⟩

theorem Puts.push {walk : Checked (Array Entry × Nat)} {out : Array Entry} {key : UInt16}
    {keys : List UInt16} {c : Container} (rest : Puts g walk (out.push ⟨key, c⟩) keys)
    (good : g.Good c) : Puts g walk out (key :: keys) := by
  obtain ⟨all, count, kept, done, added, order, goodKept⟩ := rest
  refine ⟨all, count, ⟨key, c⟩ :: kept, done, by simp [added], order.cons_cons key, ?_⟩
  exact List.forall_mem_cons.mpr ⟨good, goodKept⟩

theorem fillOnto_puts (parts : List (UInt16 × Span)) (existing : List Entry) (out : Array Entry)
    (added : Nat) (inside : ∀ p ∈ parts, p.2.stop ≤ 65536)
    (good : ∀ e ∈ existing, g.Good e.container) :
    Puts g (fillOnto parts existing out added) out (parts.map Prod.fst) := by
  induction parts generalizing existing out added with
  | nil =>
    rw [fillOnto]
    exact puts_nothing out added _
  | cons p parts ih =>
    obtain ⟨key, low⟩ := p
    obtain ⟨insideLow, insideParts⟩ := List.forall_mem_cons.mp inside
    obtain ⟨fresh, made, settled⟩ := Container.ofRange_spec low insideLow
    have goodFresh : g.Good fresh := Grade.good_of_canonical settled.canonical
    cases existing with
    | nil =>
      rw [fillOnto, made]
      exact (ih [] _ _ insideParts good).push goodFresh
    | cons e existing =>
      obtain ⟨goodHead, goodTail⟩ := List.forall_mem_cons.mp good
      rw [fillOnto]
      split
      · obtain ⟨c, done, changed⟩ := Container.insertRange_spec goodHead.formed low insideLow
        rw [done]
        exact (ih existing _ _ insideParts goodTail).push
          (goodHead.step changed.formed changed.canonical)
      · -- the entry waits for the part under its own key
        rw [made]
        exact (ih (e :: existing) _ _ insideParts good).push goodFresh

/-- What a walk puts out under keys of a window takes the place of what was there. -/
theorem Puts.sound {walk : Checked (Array Entry × Nat)} {range : Span} {keys : List UInt16}
    (puts : Puts g walk #[] keys) (sound : Sound g (front ++ middle ++ back))
    (window : Window range front middle back) (order : keys.Pairwise (· < ·))
    (within : ∀ key ∈ keys, range.start / 65536 ≤ key.toNat ∧
      key.toNat ≤ (range.stop - 1) / 65536) :
    ∃ all count, walk = .ok (all, count) ∧ Sound g (front ++ all.toList ++ back) := by
  obtain ⟨all, count, kept, done, added, some, good⟩ := puts
  have whole : all.toList = kept := by simpa using added
  refine ⟨all, count, done, ?_, ?_⟩
  · rw [whole]
    refine Window.ascending ⟨window.before, fun e member => ?_, window.behind⟩ sound.ascending
      (List.pairwise_map.mp (order.sublist some))
    exact within e.key (some.subset (List.mem_map_of_mem member))
  · rw [whole, List.forall_mem_append, List.forall_mem_append]
    have outside := sound.good
    rw [List.forall_mem_append, List.forall_mem_append] at outside
    exact ⟨⟨outside.1.1, good⟩, outside.2⟩

theorem sound_insertRange (sound : Sound g b.entries.toList) (range : Span)
    (inside : range.isEmpty = true ∨ range.stop ≤ domain) :
    ∃ c added, b.insertRange range = .ok (c, added) ∧ Sound g c.entries.toList := by
  cases something : range.isEmpty with
  | true => exact ⟨b, 0, insertRange_of_isEmpty b something, sound⟩
  | false =>
    have inside : range.stop ≤ domain := inside.resolve_left (by simp [something])
    have forwards : range.start < range.stop := by simpa [Span.isEmpty] using something
    obtain ⟨front, middle, back, parts, window, answer⟩ :=
      insertRange_cases sound.ascending something inside
    rw [parts] at sound
    have spread := spread_keyRanges forwards inside
    have puts := fillOnto_puts (keyRanges range) middle #[] 0 spread.inside fun e member =>
      sound.good e (List.mem_append_left back (List.mem_append_right front member))
    obtain ⟨all, added, filled, soundNew⟩ := puts.sound sound window
      (List.pairwise_map.mpr spread.ascending) (by
        intro key member
        obtain ⟨p, reached, rfl⟩ := List.mem_map.mp member
        exact ((mem_keyRanges forwards inside p).mp reached).1)
    obtain ⟨c, done, entries⟩ := answer all added filled
    exact ⟨c, added, done, entries ▸ soundNew⟩

theorem sound_eraseRange (sound : Sound g b.entries.toList) (range : Span) :
    ∃ c removed, b.eraseRange range = .ok (c, removed) ∧ Sound g c.entries.toList := by
  rcases Nat.lt_or_ge range.start (clamped range).stop with forwards | backwards
  · obtain ⟨c, front, middle, back, done, parts, window, entries⟩ := eraseRange_cases
      sound.ascending (fun e member => (sound.good e member).formed) forwards
    rw [parts] at sound
    have inner : Sound g middle :=
      sound.sublist ((List.sublist_append_right front middle).trans (List.sublist_append_left _ back))
    have left : Regular g (cutAll (clamped range) middle) :=
      regular_cutAll inner.ascending inner.good
    refine ⟨c, _, done, ?_, ?_⟩
    · rw [entries]
      exact window.cutAll.ascending sound.ascending left.ascending
    · have outside := sound.good
      rw [List.forall_mem_append, List.forall_mem_append] at outside
      rw [entries, List.forall_mem_append, List.forall_mem_append]
      exact ⟨⟨outside.1.1, left.good⟩, outside.2⟩
  · exact ⟨b, 0, eraseRange_of_backwards b backwards, sound⟩

/-! Calls. -/

theorem sound_of_reencoded {ds es : List Entry} (sound : Sound g ds)
    (same : List.Forall₂ (Reencoded g) ds es) : Sound g es := by
  have both : es.map Entry.key = ds.map Entry.key ∧ ∀ e ∈ es, g.Good e.container := by
    clear sound
    induction same with
    | nil => simp
    | cons first rest ih =>
      rw [List.map_cons, List.map_cons, first.key, ih.1]
      exact ⟨rfl, List.forall_mem_cons.mpr ⟨first.good, ih.2⟩⟩
  refine ⟨?_, both.2⟩
  have ascending := List.pairwise_map.mpr sound.ascending
  rw [← both.1] at ascending
  exact List.pairwise_map.mp ascending

/-- The calls that never fail: a range to add has to stay in the domain, and appending has to go
up. -/
def Call.Total : Call → Prop
  | push _ => False
  | insertRange range => range.isEmpty = true ∨ range.stop ≤ domain
  | _ => True

theorem Call.run_sound (call : Call) (total : call.Total) (sound : Sound g b.entries.toList) :
    ∃ c, call.run b = .ok c ∧ Sound g c.entries.toList := by
  cases call with
  | insert v => exact ⟨_, rfl, sound_insert sound v⟩
  | erase v => exact ⟨_, rfl, sound_erase sound v⟩
  | push v => contradiction
  | extend values => exact ⟨_, rfl, sound_extend values sound⟩
  | insertRange range =>
    obtain ⟨c, added, done, soundNew⟩ := sound_insertRange sound range total
    exact ⟨c, by rw [run, done]; rfl, soundNew⟩
  | eraseRange range =>
    obtain ⟨c, removed, done, soundNew⟩ := sound_eraseRange sound range
    exact ⟨c, by rw [run, done]; rfl, soundNew⟩
  | clear => exact ⟨empty, rfl, regular_empty.sound⟩
  | runOptimize =>
    obtain ⟨o, done, same⟩ := runOptimize_reencoded fun e member =>
      sound.good e (Array.mem_toList_iff.mpr member)
    exact ⟨o.bitmap, by rw [run, done]; rfl, sound_of_reencoded sound same⟩
  | removeRunCompression =>
    obtain ⟨c, done, same⟩ := removeRunCompression_reencoded fun e member =>
      sound.good e (Array.mem_toList_iff.mpr member)
    exact ⟨c, by rw [run, done]; rfl, sound_of_reencoded sound (same.imp fun _ _ => And.left)⟩

def runAll (calls : List Call) (b : Bitmap) : Checked Bitmap :=
  calls.foldlM (fun b call => call.run b) b

/-- What every call keeps, with an answer, a sequence of calls keeps. -/
theorem runAll_preserves (kept : Bitmap → Prop) (calls : List Call) (b : Bitmap) (start : kept b)
    (step : ∀ call ∈ calls, ∀ b, kept b → ∃ c, call.run b = .ok c ∧ kept c) :
    ∃ c, runAll calls b = .ok c ∧ kept c := by
  induction calls generalizing b with
  | nil => exact ⟨b, rfl, start⟩
  | cons call calls ih =>
    obtain ⟨first, done, next⟩ := step call List.mem_cons_self b start
    obtain ⟨c, rest, last⟩ :=
      ih first next fun other member => step other (List.mem_cons_of_mem _ member)
    refine ⟨c, ?_, last⟩
    rw [runAll, List.foldlM_cons, done]
    exact rest

end Roaring.Bitmap
