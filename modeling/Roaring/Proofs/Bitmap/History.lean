import Roaring.Codec.Writer
import Roaring.Proofs.Bitmap.Count

/-! Point updates leave no trace of their history. The bitmap after a sequence of them is a function of
the set that it holds: lists where at most `ArraySet.maxLength` values share a key, bits where there are
more, and no runs. -/
namespace Roaring

/-! Containers without runs. -/

namespace Container

variable {c d : Container} {S : Finset UInt16}

/-- The sorted list of a small set, or the bits of a large one with their number. -/
structure Depicts (c : Container) (S : Finset UInt16) : Prop where
  list : S.card ≤ ArraySet.maxLength → c = array ⟨S.sort.toArray⟩
  bits : ArraySet.maxLength < S.card → ∃ b, c = bits b ∧
    (∀ p, b.words.test p = true ↔ ∃ v ∈ S, v.toNat = p) ∧ b.cardinality = S.card

theorem Depicts.unique (first : c.Depicts S) (second : d.Depicts S) : c = d := by
  rcases Nat.lt_or_ge ArraySet.maxLength S.card with large | small
  · obtain ⟨a, rfl, testsA, countA⟩ := first.bits large
    obtain ⟨b, rfl, testsB, countB⟩ := second.bits large
    have same (v : UInt16) : v ∈ a ↔ v ∈ b := (testsA v.toNat).trans (testsB v.toNat).symm
    rw [BitSet.eq_of_mem_iff same (countA.trans countB.symm)]
  · rw [first.list small, second.list small]

theorem Canonical.depicts (canonical : c.Canonical) (plain : c.kind ≠ .runs)
    (holds : ∀ v, v ∈ c ↔ v ∈ S) : c.Depicts S := by
  have count := canonical.1.cardinality_eq_card holds
  cases c with
  | array s =>
    have short : S.card ≤ ArraySet.maxLength := count ▸ canonical.1.short
    refine ⟨fun _ => ?_, fun large => absurd short (Nat.not_le_of_lt large)⟩
    rw [← canonical.1.values_eq_sort holds]
    rfl
  | bits b =>
    have dense := canonical.2 b rfl
    refine ⟨fun short => absurd short (Nat.not_le_of_lt (count ▸ dense)), fun _ => ?_⟩
    refine ⟨b, rfl, fun p => ⟨fun set => ?_, ?_⟩, count⟩
    · have value : p.toUInt16.toNat = p := toNat_toUInt16 (b.words.lt_of_test p set)
      refine ⟨p.toUInt16, (holds _).mp ?_, value⟩
      rwa [mem_bits, BitSet.mem_def, value]
    · intro some
      obtain ⟨v, member, value⟩ := some
      rw [← value]
      exact (holds v).mpr member
  | runs r => exact absurd rfl plain

theorem kind_insert_ne_runs (plain : c.kind ≠ .runs) (v : UInt16) : (c.insert v).1.kind ≠ .runs := by
  cases c with
  | array s =>
    rw [insert]
    split
    · simp [kind]
    · split <;> simp [kind]
  | bits b => simp [insert, kind]
  | runs r => exact absurd rfl plain

theorem kind_erase_ne_runs (plain : c.kind ≠ .runs) (v : UInt16) : (c.erase v).1.kind ≠ .runs := by
  cases c with
  | array s => simp [erase, kind]
  | bits b =>
    simp only [erase, ofBits]
    split
    · split <;> simp [kind]
    · simp [kind]
  | runs r => exact absurd rfl plain

end Container

namespace Bitmap

variable {g : Grade} {a b : Bitmap} {S : Finset UInt32}

theorem lt_iff_split (u v : UInt32) :
    u < v ↔ (split u).1 < (split v).1 ∨ (split u).1 = (split v).1 ∧ (split u).2 < (split v).2 := by
  rw [← join_lt_join, join_split, join_split]

theorem eq_iff_split (u v : UInt32) :
    u = v ↔ (split u).1 = (split v).1 ∧ (split u).2 = (split v).2 := by
  refine ⟨fun same => by rw [same]; exact ⟨rfl, rfl⟩, fun halves => ?_⟩
  rw [← join_split u, ← join_split v, halves.1, halves.2]

/-! Appending. -/

theorem Regular.lt_or_mem_last {front : List Entry} {last : Entry} {k u : UInt16}
    (regular : Regular g (front ++ [last])) (held : Holds (front ++ [last]) k u) :
    k < last.key ∨ k = last.key ∧ u ∈ last.container := by
  rw [holds_append] at held
  rcases held with early | late
  · obtain ⟨low, inside⟩ := regular.right.exists_holds List.mem_cons_self
    exact Or.inl (regular.apart early inside)
  · rw [holds_cons, or_iff_left holds_nil.mp] at late
    exact Or.inr ⟨late.1.symm, late.2⟩

/-- The last entry tells whether a value has others above it. -/
theorem exists_above_iff {front : List Entry} {last : Entry}
    (regular : Regular g b.entries.toList) (parts : b.entries.toList = front ++ [last])
    (v : UInt32) : (∃ u, b.Has u ∧ v < u) ↔ (split v).1 < last.key ∨
      last.key = (split v).1 ∧ ∃ u ∈ last.container, (split v).2 < u := by
  rw [parts] at regular
  constructor
  · intro some
    obtain ⟨u, has, above⟩ := some
    rw [Has, parts] at has
    rw [lt_iff_split] at above
    rcases regular.lt_or_mem_last has with below | ⟨here, member⟩
    · rcases above with larger | ⟨equal, -⟩
      · exact Or.inl (UInt16.lt_trans larger below)
      · exact Or.inl (equal ▸ below)
    · rw [here] at above
      exact above.imp_right fun both => ⟨both.1.symm, _, member, both.2⟩
  · intro above
    have has (low : UInt16) (member : low ∈ last.container) : b.Has (join last.key low) := by
      rw [Has, parts, split_join, holds_append]
      exact Or.inr ((holds_cons last []).mpr (Or.inl ⟨rfl, member⟩))
    simp only [lt_iff_split]
    rcases above with larger | ⟨same, u, member, less⟩
    · have good := regular.right.head_good.formed
      obtain ⟨low, member⟩ := Container.exists_mem good (regular.right.nonempty _ List.mem_cons_self)
      exact ⟨join last.key low, has low member, Or.inl (by rwa [split_join])⟩
    · exact ⟨join last.key u, has u member, Or.inr (by rw [split_join]; exact ⟨same.symm, less⟩)⟩

theorem push_of_last (last : Entry) (top : b.entries.back? = some last) (v : UInt32) :
    b.push v =
      if last.key = (split v).1 then
        if last.container.max? = some (split v).2 then .ok b
        else do
          let c ← last.container.push (split v).2
          return ⟨b.entries.pop.push ⟨(split v).1, c⟩⟩
      else if last.key < (split v).1 then
        .ok ⟨b.entries.push (entryOf (split v).1 (split v).2)⟩
      else .error (.pushBelowMaximum v) := by
  rw [push, top]

/-- Appending answers exactly when no value is above the new one, and then it inserts. -/
theorem push_cases (regular : Regular g b.entries.toList) (v : UInt32) :
    (b.push v = .ok (b.insert v).1 ∧ ¬ ∃ u, b.Has u ∧ v < u) ∨
      (∃ fault, b.push v = .error fault) ∧ ∃ u, b.Has u ∧ v < u := by
  have inserts (c : Bitmap) (done : b.push v = .ok c) : b.push v = .ok (b.insert v).1 :=
    push_eq regular v c done ▸ done
  rcases List.eq_nil_or_concat' b.entries.toList with nil | ⟨front, last, parts⟩
  · have top : b.entries.back? = none := by rw [← Array.getLast?_toList, nil, List.getLast?_nil]
    refine Or.inl ⟨inserts _ (by rw [push, top]), fun some => ?_⟩
    obtain ⟨u, has, -⟩ := some
    rw [Has, nil] at has
    exact holds_nil.mp has
  · have top : b.entries.back? = some last := by
      rw [← Array.getLast?_toList, parts, List.getLast?_concat]
    have pushed := push_of_last last top v
    rw [exists_above_iff regular parts v]
    rw [parts] at regular
    have good := regular.right.head_good.formed
    by_cases same : last.key = (split v).1
    · rw [if_pos same] at pushed
      by_cases above : ∃ u ∈ last.container, (split v).2 < u
      · obtain ⟨u, member, less⟩ := above
        obtain ⟨m, top, most⟩ := Container.exists_max? good member
        have failed := Container.push_error _ _ m top (UInt16.lt_of_lt_of_le less most)
        have notTop : last.container.max? ≠ some (split v).2 := fun found =>
          UInt16.not_le.mpr less ((Container.max?_spec good _ found).2 u member)
        rw [if_neg notTop, failed] at pushed
        exact Or.inr ⟨⟨_, pushed⟩, Or.inr ⟨same, u, member, less⟩⟩
      · have atMost (u : UInt16) (member : u ∈ last.container) : u ≤ (split v).2 :=
          UInt16.not_lt.mp fun less => above ⟨u, member, less⟩
        rw [Container.push_eq good _ atMost] at pushed
        have answers : ∃ c, b.push v = .ok c := by
          rw [pushed]
          split
          · exact ⟨_, rfl⟩
          · exact ⟨_, rfl⟩
        obtain ⟨c, done⟩ := answers
        refine Or.inl ⟨inserts c done, fun either => ?_⟩
        rcases either with larger | ⟨-, some⟩
        · exact UInt16.ne_of_lt larger same.symm
        · exact above some
    · rw [if_neg same] at pushed
      by_cases less : last.key < (split v).1
      · rw [if_pos less] at pushed
        refine Or.inl ⟨inserts _ pushed, fun either => ?_⟩
        rcases either with larger | ⟨equal, -⟩
        · exact UInt16.lt_asymm larger less
        · exact same equal
      · rw [if_neg less] at pushed
        have larger := UInt16.lt_of_le_of_ne (UInt16.not_lt.mp less) (Ne.symm same)
        exact Or.inr ⟨⟨_, pushed⟩, Or.inl larger⟩

/-! What point updates build. -/

/-- The set that a bitmap holds, when it is canonical and has no runs. -/
structure Built (b : Bitmap) (S : Finset UInt32) : Prop where
  regular : Regular .canonical b.entries.toList
  plain : ∀ e ∈ b.entries.toList, e.container.kind ≠ .runs
  holds : ∀ v, b.Has v ↔ v ∈ S

theorem built_empty : empty.Built ∅ :=
  ⟨regular_nil, by simp [empty], fun v => by simp [Has, empty]⟩

theorem insert_plain (ascending : b.entries.toList.Pairwise (fun d e => d.key < e.key))
    (plain : ∀ e ∈ b.entries.toList, e.container.kind ≠ .runs) (v : UInt32) :
    ∀ e ∈ (b.insert v).1.entries.toList, e.container.kind ≠ .runs := by
  rcases insert_cases ascending v with
    ⟨front, e, back, parts, -, changed, -⟩ | ⟨front, back, parts, -, -, changed, -⟩
  · rw [parts, List.forall_mem_append, List.forall_mem_cons] at plain
    rw [changed, List.forall_mem_append, List.forall_mem_cons]
    exact ⟨plain.1, Container.kind_insert_ne_runs plain.2.1 _, plain.2.2⟩
  · rw [parts, List.forall_mem_append] at plain
    rw [changed, List.forall_mem_append, List.forall_mem_cons]
    exact ⟨plain.1, Container.kind_insert_ne_runs (by decide) _, plain.2⟩

theorem erase_plain (ascending : b.entries.toList.Pairwise (fun d e => d.key < e.key))
    (plain : ∀ e ∈ b.entries.toList, e.container.kind ≠ .runs) (v : UInt32) :
    ∀ e ∈ (b.erase v).1.entries.toList, e.container.kind ≠ .runs := by
  rcases erase_cases ascending v with
    ⟨front, e, back, parts, -, changed, -⟩ | ⟨-, unchanged⟩
  · rw [parts, List.forall_mem_append, List.forall_mem_cons] at plain
    rw [changed, List.forall_mem_append, List.forall_mem_append, slot]
    refine ⟨⟨plain.1, ?_⟩, plain.2.2⟩
    split
    · simp
    · simpa using Container.kind_erase_ne_runs plain.2.1 _
  · rw [unchanged]
    exact plain

theorem Built.insert (built : b.Built S) (v : UInt32) :
    (b.insert v).1.Built (Insert.insert v S) ∧ (b.insert v).2 = decide (v ∉ S) := by
  obtain ⟨regular, holds, added⟩ := insert_spec built.regular v
  refine ⟨⟨regular, insert_plain built.regular.ascending built.plain v, fun u => ?_⟩, ?_⟩
  · rw [Has, holds, ← eq_iff_split, Finset.mem_insert]
    exact or_congr_right (built.holds u)
  · rw [Bool.eq_iff_iff, added, built.holds, decide_eq_true_eq]

theorem Built.erase (built : b.Built S) (v : UInt32) :
    (b.erase v).1.Built (S.erase v) ∧ (b.erase v).2 = decide (v ∈ S) := by
  obtain ⟨regular, holds, removed⟩ := erase_spec built.regular v
  refine ⟨⟨regular, erase_plain built.regular.ascending built.plain v, fun u => ?_⟩, ?_⟩
  · rw [Has, holds, ← eq_iff_split, Finset.mem_erase]
    exact and_congr_right fun _ => built.holds u
  · rw [Bool.eq_iff_iff, removed, built.holds, decide_eq_true_eq]

theorem Built.extend (built : b.Built S) (values : Array UInt32) :
    (b.extend values).Built (S ∪ values.toList.toFinset) := by
  rw [Bitmap.extend, ← Array.foldl_toList]
  generalize values.toList = values
  induction values generalizing b S with
  | nil => simpa using built
  | cons v values ih =>
    rw [List.foldl_cons, List.toFinset_cons, Finset.union_insert, ← Finset.insert_union]
    exact ih (built.insert v).1

/-! Point updates. -/

inductive PointUpdate where
  | insert (v : UInt32)
  | erase (v : UInt32)
  | push (v : UInt32)
  | extend (values : Array UInt32)
  | clear

namespace PointUpdate

def onBitmap : PointUpdate → Bitmap → Checked (Bitmap × Option Bool)
  | insert v, b => .ok ((b.insert v).1, some (b.insert v).2)
  | erase v, b => .ok ((b.erase v).1, some (b.erase v).2)
  | push v, b => return (← b.push v, none)
  | extend values, b => .ok (b.extend values, none)
  | clear, _ => .ok (empty, none)

/-- The same for a set. A value below another one cannot be appended. -/
def onSet : PointUpdate → Finset UInt32 → Option (Finset UInt32 × Option Bool)
  | insert v, S => some (Insert.insert v S, some (decide (v ∉ S)))
  | erase v, S => some (S.erase v, some (decide (v ∈ S)))
  | push v, S => if ∃ u ∈ S, v < u then none else some (Insert.insert v S, none)
  | extend values, S => some (S ∪ values.toList.toFinset, none)
  | clear, _ => some (∅, none)

/-- Updates one after the other, and what each of them tells. -/
def inTurn {σ : Type} {m : Type → Type} [Monad m] (step : PointUpdate → σ → m (σ × Option Bool)) :
    List PointUpdate → σ → m (σ × List (Option Bool))
  | [], s => return (s, [])
  | update :: updates, s => do
    let (s, answer) ← step update s
    let (s, answers) ← inTurn step updates s
    return (s, answer :: answers)

/-- A bitmap that was built as the set was, or a failure where the set has no outcome. -/
def Agrees {α : Type} (outcome : Option (Finset UInt32 × α)) (result : Checked (Bitmap × α)) :
    Prop :=
  match outcome with
  | none => ∃ fault, result = .error fault
  | some (S, answer) => ∃ b, result = .ok (b, answer) ∧ b.Built S

theorem agrees_step (update : PointUpdate) (built : b.Built S) :
    Agrees (update.onSet S) (update.onBitmap b) := by
  cases update with
  | insert v =>
    obtain ⟨next, answer⟩ := built.insert v
    exact ⟨_, by rw [onBitmap, answer], next⟩
  | erase v =>
    obtain ⟨next, answer⟩ := built.erase v
    exact ⟨_, by rw [onBitmap, answer], next⟩
  | push v =>
    rw [onSet, onBitmap]
    rcases push_cases built.regular v with ⟨done, last⟩ | ⟨⟨fault, failed⟩, u, has, above⟩
    · have appendable : ¬ ∃ u ∈ S, v < u := fun ⟨u, member, above⟩ =>
        last ⟨u, (built.holds u).mpr member, above⟩
      rw [if_neg appendable, done]
      exact ⟨_, rfl, (built.insert v).1⟩
    · rw [if_pos ⟨u, (built.holds u).mp has, above⟩, failed]
      exact ⟨fault, rfl⟩
  | extend values => exact ⟨_, rfl, built.extend values⟩
  | clear => exact ⟨_, rfl, built_empty⟩

theorem agrees_inTurn (updates : List PointUpdate) (built : b.Built S) :
    Agrees (inTurn onSet updates S) (inTurn onBitmap updates b) := by
  induction updates generalizing b S with
  | nil => exact ⟨b, rfl, built⟩
  | cons update updates ih =>
    have step := agrees_step update built
    rw [inTurn, inTurn]
    cases outcome : onSet update S with
    | none =>
      rw [outcome] at step
      obtain ⟨fault, failed⟩ := step
      rw [failed]
      exact ⟨fault, rfl⟩
    | some reached =>
      rw [outcome] at step
      obtain ⟨c, done, next⟩ := step
      have rest := ih next
      rw [done]
      change Agrees (inTurn onSet updates reached.1 >>= _) (inTurn onBitmap updates c >>= _)
      cases later : inTurn onSet updates reached.1 with
      | none =>
        rw [later] at rest
        obtain ⟨fault, failed⟩ := rest
        rw [failed]
        exact ⟨fault, rfl⟩
      | some last =>
        rw [later] at rest
        obtain ⟨d, done, final⟩ := rest
        rw [done]
        exact ⟨d, rfl, final⟩

end PointUpdate

/-! The state that is left. -/

def lowsUnder (S : Finset UInt32) (key : UInt16) : Finset UInt16 :=
  (S.filter fun v => (split v).1 = key).image fun v => (split v).2

theorem mem_lowsUnder (S : Finset UInt32) (key low : UInt16) :
    low ∈ lowsUnder S key ↔ join key low ∈ S := by
  rw [lowsUnder, Finset.mem_image]
  constructor
  · intro held
    obtain ⟨v, member, rfl⟩ := held
    obtain ⟨member, rfl⟩ := Finset.mem_filter.mp member
    rwa [join_split]
  · intro member
    refine ⟨join key low, Finset.mem_filter.mpr ⟨member, ?_⟩, ?_⟩
    · rw [split_join]
    · rw [split_join]

/-- The distinct high halves in ascending order, each with the container of its low halves. -/
structure Depicts (b : Bitmap) (S : Finset UInt32) : Prop where
  keys : b.keys.toList = (S.image fun v => (split v).1).sort
  containers : ∀ e ∈ b.entries, e.container.Depicts (lowsUnder S e.key)

theorem eq_of_map_key {ds es : List Entry} (keys : ds.map Entry.key = es.map Entry.key)
    (same : ∀ d ∈ ds, ∀ e ∈ es, d.key = e.key → d = e) : ds = es := by
  apply List.ext_getElem
  · simpa using congrArg List.length keys
  · intro i insideD insideE
    apply same _ (List.getElem_mem insideD) _ (List.getElem_mem insideE)
    have here := List.getElem_of_eq keys (by rwa [List.length_map])
    rwa [List.getElem_map, List.getElem_map] at here

theorem Depicts.unique (first : a.Depicts S) (second : b.Depicts S) : a = b := by
  apply ext
  apply eq_of_map_key
  · rw [← Array.toList_map, ← Array.toList_map]
    exact first.keys.trans second.keys.symm
  · intro d inA e inB same
    have containerD := first.containers d (Array.mem_toList_iff.mp inA)
    have containerE := second.containers e (Array.mem_toList_iff.mp inB)
    rw [← same] at containerE
    obtain ⟨_, _⟩ := d
    obtain ⟨_, _⟩ := e
    rw [Entry.mk.injEq]
    exact ⟨same, containerD.unique containerE⟩

theorem Built.depicts (built : b.Built S) : b.Depicts S := by
  have regular := built.regular
  constructor
  · rw [keys, Array.toList_map]
    apply eq_sort (List.pairwise_map.mpr regular.ascending)
    intro key
    rw [List.mem_map, Finset.mem_image]
    constructor
    · intro listed
      obtain ⟨e, member, rfl⟩ := listed
      obtain ⟨low, held⟩ := regular.exists_holds member
      refine ⟨join e.key low, (built.holds _).mp ?_, by rw [split_join]⟩
      rwa [Has, split_join]
    · intro high
      obtain ⟨v, member, rfl⟩ := high
      obtain ⟨e, inside, key, -⟩ := (built.holds v).mpr member
      exact ⟨e, inside, key⟩
  · intro e member
    rw [← Array.mem_toList_iff] at member
    refine (regular.good e member).depicts (built.plain e member) fun low => ?_
    have held : Holds b.entries.toList e.key low ↔ low ∈ e.container := by
      obtain ⟨front, back, parts⟩ := List.append_of_mem member
      rw [parts] at regular ⊢
      exact regular.holds_at low
    rw [← held, mem_lowsUnder, ← built.holds, Has, split_join]

theorem PointUpdate.depicts_of_outcome {answers : List (Option Bool)} (updates : List PointUpdate)
    (outcome : inTurn onSet updates ∅ = some (S, answers)) :
    ∃ b, inTurn onBitmap updates empty = .ok (b, answers) ∧ b.Depicts S := by
  have agrees := agrees_inTurn updates built_empty
  rw [outcome] at agrees
  obtain ⟨b, done, built⟩ := agrees
  exact ⟨b, done, built.depicts⟩

/-- Point updates tell what those of a set tell, and the set alone determines the bitmap that they
leave. They fail where a value is appended below another one. -/
theorem history_independent :
    (∀ updates S answers, PointUpdate.inTurn PointUpdate.onSet updates ∅ = some (S, answers) →
      ∃ b, PointUpdate.inTurn PointUpdate.onBitmap updates empty = .ok (b, answers) ∧
        b.Depicts S) ∧
    (∀ updates, PointUpdate.inTurn PointUpdate.onSet updates ∅ = none →
      ∃ fault, PointUpdate.inTurn PointUpdate.onBitmap updates empty = .error fault) ∧
    ∀ first second S answersA answersB,
      PointUpdate.inTurn PointUpdate.onSet first ∅ = some (S, answersA) →
      PointUpdate.inTurn PointUpdate.onSet second ∅ = some (S, answersB) →
      ∃ a b, PointUpdate.inTurn PointUpdate.onBitmap first empty = .ok (a, answersA) ∧
        PointUpdate.inTurn PointUpdate.onBitmap second empty = .ok (b, answersB) ∧
        a = b ∧ a.serialize = b.serialize := by
  refine ⟨fun updates S answers => PointUpdate.depicts_of_outcome updates,
    fun updates outcome => ?_, fun first second S answersA answersB endA endB => ?_⟩
  · have agrees := PointUpdate.agrees_inTurn updates built_empty
    rw [outcome] at agrees
    exact agrees
  · obtain ⟨a, doneA, depictsA⟩ := PointUpdate.depicts_of_outcome first endA
    obtain ⟨b, doneB, depictsB⟩ := PointUpdate.depicts_of_outcome second endB
    have same := depictsA.unique depictsB
    exact ⟨a, b, doneA, doneB, same, congrArg serialize same⟩

/-- Values that come in one order and with detours, or in another at once. -/
theorem history_independent_detour :
    let detour : List PointUpdate :=
      [.extend #[9, 65541], .insert 65537, .erase 9, .erase 9, .push 65541, .insert 5]
    let straight : List PointUpdate := [.insert 1, .clear, .push 5, .push 65537, .push 65541]
    ∃ a b, PointUpdate.inTurn PointUpdate.onBitmap detour empty =
        .ok (a, [none, some true, some true, some false, none, some true]) ∧
      PointUpdate.inTurn PointUpdate.onBitmap straight empty =
        .ok (b, [some true, none, none, none, none]) ∧
      a.Depicts {5, 65537, 65541} ∧ a = b ∧ a.serialize = b.serialize ∧
      ∃ fault, PointUpdate.inTurn PointUpdate.onBitmap [.push 7, .push 6] empty = .error fault := by
  intro detour straight
  obtain ⟨reached, fails, independent⟩ := history_independent
  have endA : PointUpdate.inTurn PointUpdate.onSet detour ∅ = some ({5, 65537, 65541},
      [none, some true, some true, some false, none, some true]) := by decide
  have endB : PointUpdate.inTurn PointUpdate.onSet straight ∅ =
      some ({5, 65537, 65541}, [some true, none, none, none, none]) := by decide
  have stuck : PointUpdate.inTurn PointUpdate.onSet [.push 7, .push 6] ∅ = none := by decide
  obtain ⟨a, b, doneA, doneB, same, bytes⟩ := independent _ _ _ _ _ endA endB
  obtain ⟨c, doneC, depicts⟩ := reached _ _ _ endA
  obtain rfl : a = c := (Prod.mk.inj (Except.ok.inj (doneA.symm.trans doneC))).1
  exact ⟨a, b, doneA, doneB, depicts, same, bytes, fails _ stuck⟩

end Bitmap

end Roaring
