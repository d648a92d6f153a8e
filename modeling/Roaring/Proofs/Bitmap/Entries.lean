import Roaring.Bitmap.Algebra
import Roaring.Proofs.Container.Algebra
import Roaring.Proofs.Splice

/-! Lists of entries, described by what they hold. A regular list has ascending keys and containers
of a grade, none of them empty; it is built up from shorter ones by what they hold. -/
namespace Roaring

/-- How much is asked of the containers of a bitmap. -/
inductive Grade where
  | wellFormed
  | canonical

namespace Grade

def Good : Grade → Container → Prop
  | wellFormed, c => c.WellFormed
  | canonical, c => c.Canonical

variable {g : Grade} {c d : Container}

theorem Good.formed (good : g.Good c) : c.WellFormed := by
  cases g with
  | wellFormed => exact good
  | canonical => exact good.1

theorem good_of_canonical (canonical : c.Canonical) : g.Good c := by
  cases g with
  | wellFormed => exact canonical.1
  | canonical => exact canonical

theorem Good.step (good : g.Good c) (formed : d.WellFormed)
    (canonical : c.Canonical → d.Canonical) : g.Good d := by
  cases g with
  | wellFormed => exact formed
  | canonical => exact canonical good

end Grade

theorem Container.exists_mem {c : Container} (formed : c.WellFormed) (some : c.isEmpty = false) :
    ∃ v, v ∈ c := by
  by_contra none
  have empty := formed.isEmpty_iff.mpr fun v member => none ⟨v, member⟩
  rw [empty] at some
  contradiction

theorem Container.isEmpty_eq_false {c : Container} (formed : c.WellFormed) (v : UInt16)
    (member : v ∈ c) : c.isEmpty = false := by
  rw [Bool.eq_false_iff]
  exact fun empty => formed.isEmpty_iff.mp empty v member

namespace Bitmap

/-- Some entry of the list holds the low half under the key. -/
def Holds (entries : List Entry) (key low : UInt16) : Prop :=
  ∃ e ∈ entries, e.key = key ∧ low ∈ e.container

variable {g : Grade} {key low : UInt16}

@[simp] theorem holds_nil : Holds [] key low ↔ False := by
  simp [Holds]

@[simp] theorem holds_cons (e : Entry) (entries : List Entry) :
    Holds (e :: entries) key low ↔ (e.key = key ∧ low ∈ e.container) ∨ Holds entries key low := by
  simp [Holds]

@[simp] theorem holds_append (ds es : List Entry) :
    Holds (ds ++ es) key low ↔ Holds ds key low ∨ Holds es key low := by
  simp [Holds, or_and_right, exists_or]

/-- What is true of all keys is true of the keys that hold something. -/
theorem forall_holds {entries : List Entry} {p : UInt16 → Prop} (all : ∀ e ∈ entries, p e.key)
    (k v : UInt16) (held : Holds entries k v) : p k := by
  obtain ⟨e, member, rfl, -⟩ := held
  exact all e member

/-- Ascending keys, with a non-empty container of the grade under each. -/
structure Regular (g : Grade) (entries : List Entry) : Prop where
  ascending : entries.Pairwise (fun d e => d.key < e.key)
  good : ∀ e ∈ entries, g.Good e.container
  nonempty : ∀ e ∈ entries, e.container.isEmpty = false

theorem Regular.exists_holds {entries : List Entry} (regular : Regular g entries) {e : Entry}
    (member : e ∈ entries) : ∃ low, Holds entries e.key low := by
  obtain ⟨v, inside⟩ :=
    Container.exists_mem (regular.good e member).formed (regular.nonempty e member)
  exact ⟨v, e, member, rfl, inside⟩

theorem regular_nil : Regular g [] := ⟨List.Pairwise.nil, by simp, by simp⟩

theorem Regular.append {ds es : List Entry} (first : Regular g ds) (second : Regular g es)
    (apart : ∀ j u k v, Holds ds j u → Holds es k v → j < k) : Regular g (ds ++ es) := by
  refine ⟨List.pairwise_append.mpr ⟨first.ascending, second.ascending, ?_⟩, ?_, ?_⟩
  · intro d inFirst e inSecond
    obtain ⟨u, heldD⟩ := first.exists_holds inFirst
    obtain ⟨v, heldE⟩ := second.exists_holds inSecond
    exact apart _ u _ v heldD heldE
  · intro e member
    rcases List.mem_append.mp member with inFirst | inSecond
    · exact first.good e inFirst
    · exact second.good e inSecond
  · intro e member
    rcases List.mem_append.mp member with inFirst | inSecond
    · exact first.nonempty e inFirst
    · exact second.nonempty e inSecond

theorem Regular.left {ds es : List Entry} (all : Regular g (ds ++ es)) : Regular g ds :=
  ⟨(List.pairwise_append.mp all.ascending).1,
    fun e member => all.good e (List.mem_append_left _ member),
    fun e member => all.nonempty e (List.mem_append_left _ member)⟩

theorem Regular.right {ds es : List Entry} (all : Regular g (ds ++ es)) : Regular g es :=
  ⟨(List.pairwise_append.mp all.ascending).2.1,
    fun e member => all.good e (List.mem_append_right _ member),
    fun e member => all.nonempty e (List.mem_append_right _ member)⟩

theorem Regular.apart {ds es : List Entry} (all : Regular g (ds ++ es)) {j u k v : UInt16}
    (first : Holds ds j u) (second : Holds es k v) : j < k := by
  obtain ⟨d, inFirst, rfl, -⟩ := first
  obtain ⟨e, inSecond, rfl, -⟩ := second
  exact (List.pairwise_append.mp all.ascending).2.2 d inFirst e inSecond

theorem Regular.tail {e : Entry} {entries : List Entry} (all : Regular g (e :: entries)) :
    Regular g entries :=
  Regular.right (show Regular g ([e] ++ entries) from all)

theorem Regular.head_good {e : Entry} {entries : List Entry} (all : Regular g (e :: entries)) :
    g.Good e.container :=
  all.good e List.mem_cons_self

theorem Regular.head_lt {e : Entry} {entries : List Entry} (all : Regular g (e :: entries))
    {k v : UInt16} (later : Holds entries k v) : e.key < k := by
  obtain ⟨d, member, rfl, -⟩ := later
  exact (List.pairwise_cons.mp all.ascending).1 d member

theorem Regular.not_holds_tail {e : Entry} {entries : List Entry} (all : Regular g (e :: entries))
    (v : UInt16) : ¬ Holds entries e.key v :=
  fun later => UInt16.lt_irrefl _ (all.head_lt later)

theorem Regular.holds_head {e : Entry} {entries : List Entry} (all : Regular g (e :: entries))
    (v : UInt16) : Holds (e :: entries) e.key v ↔ v ∈ e.container := by
  simp [all.not_holds_tail v]

theorem holds_other {e : Entry} {entries : List Entry} {k : UInt16} (other : e.key ≠ k)
    (v : UInt16) : Holds (e :: entries) k v ↔ Holds entries k v := by
  simp [other]

theorem Regular.lt_of_holds {e : Entry} {entries : List Entry} (all : Regular g (e :: entries))
    {key k v : UInt16} (below : key < e.key) (held : Holds (e :: entries) k v) : key < k := by
  rcases (holds_cons e entries).mp held with ⟨rfl, -⟩ | later
  · exact below
  · exact UInt16.lt_trans below (all.head_lt later)

theorem Regular.not_holds_below {e : Entry} {entries : List Entry}
    (all : Regular g (e :: entries)) {k : UInt16} (below : k < e.key) (v : UInt16) :
    ¬ Holds (e :: entries) k v :=
  fun held => UInt16.lt_irrefl _ (all.lt_of_holds below held)

theorem regular_singleton (e : Entry) (good : g.Good e.container)
    (some : e.container.isEmpty = false) : Regular g [e] := by
  refine ⟨List.pairwise_singleton _ _, ?_, ?_⟩
  · intro d member
    rw [List.mem_singleton.mp member]
    exact good
  · intro d member
    rw [List.mem_singleton.mp member]
    exact some

theorem Regular.cons {e : Entry} {entries : List Entry} (rest : Regular g entries)
    (good : g.Good e.container) (some : e.container.isEmpty = false)
    (behind : ∀ k v, Holds entries k v → e.key < k) : Regular g (e :: entries) := by
  apply (regular_singleton e good some).append rest
  intro j u k v here later
  simp only [holds_cons, holds_nil, or_false] at here
  rw [← here.1]
  exact behind k v later

theorem Regular.dropWhile {entries : List Entry} (regular : Regular g entries) (p : Entry → Bool) :
    Regular g (entries.dropWhile p) := by
  rw [← List.takeWhile_append_dropWhile (p := p) (l := entries)] at regular
  exact regular.right

/-! An entry that is there only when its container holds something. -/

def slot (key : UInt16) (c : Container) : List Entry := if c.isEmpty then [] else [⟨key, c⟩]

theorem regular_slot (key : UInt16) (c : Container) (good : g.Good c) :
    Regular g (slot key c) := by
  rw [slot]
  split
  · exact regular_nil
  · rename_i some
    exact regular_singleton ⟨key, c⟩ good (by simpa using some)

theorem holds_slot (key : UInt16) (c : Container) (formed : c.WellFormed) (k v : UInt16) :
    Holds (slot key c) k v ↔ key = k ∧ v ∈ c := by
  rw [slot]
  split
  · rename_i none
    have absent := formed.isEmpty_iff.mp none v
    simp [absent]
  · simp

theorem slot_of_nonempty (e : Entry) (some : e.container.isEmpty = false) :
    slot e.key e.container = [e] := by
  rw [slot, if_neg (by simp [some])]

theorem toList_pushNonempty (out : Array Entry) (key : UInt16) (c : Container) :
    (pushNonempty out key c).toList = out.toList ++ slot key c := by
  rw [pushNonempty, slot]
  split <;> simp

theorem toList_appendNonempty (out : Array Entry) (entries : List Entry)
    (nonempty : ∀ e ∈ entries, e.container.isEmpty = false) :
    (appendNonempty out entries).toList = out.toList ++ entries := by
  rw [appendNonempty]
  induction entries generalizing out with
  | nil => simp
  | cons e entries ih =>
    rw [List.foldl_cons, ih _ fun d member => nonempty d (List.mem_cons_of_mem _ member),
      toList_pushNonempty, slot_of_nonempty e (nonempty e List.mem_cons_self), List.append_assoc,
      List.singleton_append]

theorem Regular.between {ds es : List Entry} {e : Entry} (first : Regular g ds)
    (second : Regular g es) (good : g.Good e.container) (some : e.container.isEmpty = false)
    (before : ∀ k v, Holds ds k v → k < e.key) (behind : ∀ k v, Holds es k v → e.key < k) :
    Regular g (ds ++ e :: es) := by
  apply first.append (second.cons good some behind)
  intro j u k v inFirst later
  rcases (holds_cons e es).mp later with ⟨rfl, -⟩ | inSecond
  · exact before j u inFirst
  · exact UInt16.lt_trans (before j u inFirst) (behind k v inSecond)

theorem Regular.around {ds es : List Entry} {e : Entry} (all : Regular g (ds ++ e :: es)) :
    (∀ k v, Holds ds k v → k < e.key) ∧ ∀ k v, Holds es k v → e.key < k := by
  obtain ⟨low, here⟩ := all.right.exists_holds List.mem_cons_self
  exact ⟨fun k v inFirst => all.apart inFirst here, fun k v later => all.right.head_lt later⟩

theorem Regular.holds_at {ds es : List Entry} {e : Entry} (all : Regular g (ds ++ e :: es))
    (v : UInt16) : Holds (ds ++ e :: es) e.key v ↔ v ∈ e.container := by
  obtain ⟨before, -⟩ := all.around
  have notEarly : ¬ Holds ds e.key v := fun inFirst => UInt16.lt_irrefl _ (before _ v inFirst)
  rw [holds_append, or_iff_right notEarly, all.right.holds_head]

theorem Regular.replace {ds es : List Entry} {e : Entry} (all : Regular g (ds ++ e :: es))
    (c : Container) (good : g.Good c) :
    Regular g (ds ++ slot e.key c ++ es) ∧
      (∀ v, Holds (ds ++ slot e.key c ++ es) e.key v ↔ v ∈ c) ∧
      ∀ k v, e.key ≠ k →
        (Holds (ds ++ slot e.key c ++ es) k v ↔ Holds (ds ++ e :: es) k v) := by
  obtain ⟨before, behind⟩ := all.around
  refine ⟨?_, ?_, ?_⟩
  · apply (all.left.append (regular_slot e.key c good) ?_).append all.right.tail ?_
    · intro j u k v inFirst here
      rw [← ((holds_slot e.key c good.formed k v).mp here).1]
      exact before j u inFirst
    · intro j u k v early late
      rcases (holds_append _ _).mp early with inFirst | here
      · exact UInt16.lt_trans (before j u inFirst) (behind k v late)
      · rw [← ((holds_slot e.key c good.formed j u).mp here).1]
        exact behind k v late
  · intro v
    have notEarly : ¬ Holds ds e.key v := fun inFirst => UInt16.lt_irrefl _ (before _ v inFirst)
    have notLate : ¬ Holds es e.key v := fun later => UInt16.lt_irrefl _ (behind _ v later)
    rw [holds_append, holds_append, holds_slot e.key c good.formed]
    simp [notEarly, notLate]
  · intro k v other
    rw [holds_append, holds_append, holds_slot e.key c good.formed, holds_append, holds_other other]
    simp [other]

/-- Entries with keys below a bound do not matter from the bound on. -/
theorem holds_dropWhile (entries : List Entry) (bound : UInt16) {k : UInt16} (later : ¬ k < bound)
    (v : UInt16) : Holds (entries.dropWhile (fun e => e.key < bound)) k v ↔ Holds entries k v := by
  induction entries with
  | nil => rfl
  | cons e entries ih =>
    rw [List.dropWhile_cons]
    split
    · rename_i below
      have other : e.key ≠ k := by
        rintro rfl
        exact later (by simpa using below)
      rw [ih, holds_other other]
    · rfl

/-! Walks that put out entries in the order of their keys. -/

/-- What a walk adds to its output. -/
def Adds (g : Grade) (result : Checked (Array Entry)) (out : Array Entry)
    (keep : UInt16 → UInt16 → Prop) : Prop :=
  ∃ all kept, result = .ok all ∧ all.toList = out.toList ++ kept ∧ Regular g kept ∧
    ∀ k v, Holds kept k v ↔ keep k v

/-- A container under the smallest key, and what the rest of the walk adds. -/
theorem Adds.push {result : Checked (Array Entry)} {out : Array Entry} {key : UInt16}
    {c : Container} {keep keep' : UInt16 → UInt16 → Prop} (good : g.Good c)
    (rest : Adds g result (pushNonempty out key c) keep')
    (behind : ∀ k v, keep' k v → key < k)
    (split : ∀ k v, keep k v ↔ (key = k ∧ v ∈ c) ∨ keep' k v) : Adds g result out keep := by
  obtain ⟨all, kept, done, added, regular, holds⟩ := rest
  refine ⟨all, slot key c ++ kept, done, ?_, (regular_slot key c good).append regular ?_, ?_⟩
  · rw [added, toList_pushNonempty, List.append_assoc]
  · intro j u k v here later
    rw [holds_slot key c good.formed] at here
    rw [← here.1]
    exact behind k v ((holds k v).mp later)
  · intro k v
    rw [holds_append, holds_slot key c good.formed, holds, split]

theorem Adds.congr {result : Checked (Array Entry)} {out : Array Entry}
    {keep keep' : UInt16 → UInt16 → Prop} (adds : Adds g result out keep)
    (same : ∀ k v, keep k v ↔ keep' k v) : Adds g result out keep' := by
  obtain ⟨all, kept, done, added, regular, holds⟩ := adds
  exact ⟨all, kept, done, added, regular, fun k v => (holds k v).trans (same k v)⟩

theorem adds_nothing (out : Array Entry) (keep : UInt16 → UInt16 → Prop)
    (none : ∀ k v, ¬ keep k v) : Adds g (.ok out) out keep :=
  ⟨out, [], rfl, by simp, regular_nil, fun k v => by simp [none k v]⟩

theorem adds_all (out : Array Entry) (entries : List Entry) (regular : Regular g entries) :
    Adds g (.ok (appendNonempty out entries)) out (Holds entries) :=
  ⟨_, entries, rfl, toList_appendNonempty out entries regular.nonempty, regular,
    fun _ _ => Iff.rfl⟩

/-- A walk that starts with nothing put out gives a bitmap. -/
theorem Adds.bitmap {walk : Checked (Array Entry)} {keep : UInt16 → UInt16 → Prop}
    (adds : Adds g walk #[] keep) :
    ∃ c : Bitmap, (walk >>= fun entries => pure ⟨entries⟩) = .ok c ∧
      Regular g c.entries.toList ∧ ∀ k v, Holds c.entries.toList k v ↔ keep k v := by
  obtain ⟨all, kept, done, added, regular, holds⟩ := adds
  have whole : all.toList = kept := by simpa using added
  refine ⟨⟨all⟩, by rw [done]; rfl, ?_, ?_⟩
  · rw [whole]
    exact regular
  · rw [whole]
    exact holds

theorem pushNonempty_of_nonempty (out : Array Entry) (key : UInt16) (c : Container)
    (some : c.isEmpty = false) : pushNonempty out key c = out.push ⟨key, c⟩ := by
  rw [pushNonempty, if_neg (by simp [some])]

/-! Bitmaps. -/

variable {b : Bitmap}

theorem wellFormed_iff : b.WellFormed ↔ Regular .wellFormed b.entries.toList := by
  constructor
  · intro formed
    refine ⟨formed.ascending, ?_, ?_⟩
    · exact fun e member => (formed.containers e (Array.mem_toList_iff.mp member)).1
    · exact fun e member => (formed.containers e (Array.mem_toList_iff.mp member)).2
  · intro regular
    refine ⟨regular.ascending, fun e member => ?_⟩
    rw [← Array.mem_toList_iff] at member
    exact ⟨regular.good e member, regular.nonempty e member⟩

theorem canonical_iff : b.Canonical ↔ Regular .canonical b.entries.toList := by
  constructor
  · intro canonical
    refine ⟨canonical.ascending, ?_, ?_⟩
    · exact fun e member => canonical.dense e (Array.mem_toList_iff.mp member)
    · exact fun e member => (canonical.containers e (Array.mem_toList_iff.mp member)).2
  · intro regular
    refine ⟨⟨regular.ascending, fun e member => ?_⟩, fun e member => ?_⟩
    · rw [← Array.mem_toList_iff] at member
      exact ⟨(regular.good e member).1, regular.nonempty e member⟩
    · exact regular.good e (Array.mem_toList_iff.mpr member)

end Bitmap

end Roaring
