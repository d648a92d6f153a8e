import Roaring.Bitmap.Cursor
import Roaring.Proofs.Container.Queries
import Roaring.Proofs.Bitmap.Values

/-! The values of a bitmap, taken from both ends in turns of any order. What a turn does to the list of
the values that are left fixes what all turns answer: successive values from either end, none of them
twice, and nothing once all are taken. -/
namespace Roaring

/-! Lists. -/

section Lists

variable {α : Type} {values : List α} {turns : List End} {answers : List (Option α)} {a : α}

def answersAt (side : End) (turns : List End) (answers : List (Option α)) : List (Option α) :=
  ((turns.zip answers).filter fun turn => turn.1 = side).map Prod.snd

theorem answersAt_same (side : End) (answer : Option α) :
    answersAt side (side :: turns) (answer :: answers) = answer :: answersAt side turns answers := by
  simp [answersAt]

theorem answersAt_other {side turn : End} (other : turn ≠ side) (answer : Option α) :
    answersAt side (turn :: turns) (answer :: answers) = answersAt side turns answers := by
  simp [answersAt, other]

def turnsAt (side : End) (turns : List End) (n : Nat) : Nat := (turns.take n).count side

theorem turnsAt_le (side : End) (turns : List End) (n : Nat) : turnsAt side turns n ≤ n :=
  List.count_le_length.trans (List.length_take_le n turns)

theorem turnsAt_same (side : End) (turns : List End) (n : Nat) :
    turnsAt side (side :: turns) (n + 1) = turnsAt side turns n + 1 := by
  rw [turnsAt, List.take_succ_cons, List.count_cons_self, turnsAt]

theorem turnsAt_other {side turn : End} (other : turn ≠ side) (turns : List End) (n : Nat) :
    turnsAt side (turn :: turns) (n + 1) = turnsAt side turns n := by
  rw [turnsAt, List.take_succ_cons, List.count_cons_of_ne other, turnsAt]

/-- The first `taken` values, then nothing until all `asked` turns are answered. -/
def handedOut (values : List α) (taken asked : Nat) : List (Option α) :=
  (values.take taken).map some ++ List.replicate (asked - taken) none

theorem handedOut_cons (values : List α) (taken asked : Nat) :
    handedOut (a :: values) (taken + 1) (asked + 1) = some a :: handedOut values taken asked := by
  simp [handedOut]

theorem handedOut_append (values more : List α) {taken : Nat} (enough : taken ≤ values.length)
    (asked : Nat) : handedOut (values ++ more) taken asked = handedOut values taken asked := by
  rw [handedOut, List.take_append_of_le_length enough, handedOut]

theorem mem_of_handedOut {taken asked : Nat} (out : some a ∈ handedOut values taken asked) :
    a ∈ values := by
  rw [handedOut, List.mem_append, List.mem_map] at out
  rcases out with ⟨b, early, same⟩ | none
  · rw [← Option.some.inj same]
    exact List.mem_of_mem_take early
  · exact absurd (List.eq_of_mem_replicate none) (Option.some_ne_none a)

/-- What turns answer that take the values of a list from its two ends. The turns that come while
values are left share them out: those at the front get successive values from the front, those at the
back successive values from the back, and together they get each value once. Later turns get
nothing. -/
structure Drained (values : List α) (turns : List End) (answers : List (Option α)) : Prop where
  length : answers.length = turns.length
  front : answersAt .front turns answers =
    handedOut values (turnsAt .front turns values.length) (turns.count .front)
  back : answersAt .back turns answers =
    handedOut values.reverse (turnsAt .back turns values.length) (turns.count .back)
  apart : ∀ v, some v ∈ answersAt .front turns answers → some v ∉ answersAt .back turns answers
  all : values.length ≤ turns.length → (answers.take values.length).Perm (values.map some)
  spent : ∀ answer ∈ answers.drop values.length, answer = none

theorem handedOut_nil (taken asked : Nat) :
    handedOut ([] : List α) taken asked = List.replicate (asked - taken) none := by
  rw [handedOut, List.take_nil, List.map_nil, List.nil_append]

theorem turnsAt_zero (side : End) (turns : List End) : turnsAt side turns 0 = 0 := rfl

theorem drained_start (values : List α) : Drained values [] [] := by
  constructor
  case length => rfl
  case front => simp [answersAt, handedOut, turnsAt]
  case back => simp [answersAt, handedOut, turnsAt]
  case apart => simp [answersAt]
  case all => simp
  case spent => simp

/-- A turn at either end of nothing gets nothing. -/
theorem Drained.empty_turn (rest : Drained ([] : List α) turns answers) (turn : End) :
    Drained ([] : List α) (turn :: turns) (none :: answers) := by
  have nothing (side : End)
      (before : answersAt side turns answers = List.replicate (turns.count side) none) :
      answersAt side (turn :: turns) (none :: answers) =
        List.replicate ((turn :: turns).count side) none := by
    by_cases same : turn = side
    · rw [same, answersAt_same, before, List.count_cons_self, List.replicate_succ]
    · rw [answersAt_other same, before, List.count_cons_of_ne same]
  obtain ⟨length, front, back, -, -, spent⟩ := rest
  rw [handedOut_nil, List.length_nil, turnsAt_zero] at front
  rw [List.reverse_nil, handedOut_nil, List.length_nil, turnsAt_zero] at back
  constructor
  case length => rw [List.length_cons, List.length_cons, length]
  case front => rw [nothing .front front, handedOut_nil]; rfl
  case back => rw [nothing .back back, List.reverse_nil, handedOut_nil]; rfl
  case apart =>
    intro v early
    rw [nothing .front front] at early
    exact absurd (List.eq_of_mem_replicate early) (Option.some_ne_none v)
  case all => exact fun _ => .refl _
  case spent => exact List.forall_mem_cons.mpr ⟨rfl, spent⟩

/-- A turn at the front gets the first value. -/
theorem Drained.front_turn (rest : Drained values turns answers) (fresh : a ∉ values) :
    Drained (a :: values) (.front :: turns) (some a :: answers) := by
  have other : End.front ≠ .back := by decide
  have enough : turnsAt .back turns values.length ≤ values.reverse.length := by
    rw [List.length_reverse]
    exact turnsAt_le _ _ _
  have back : answersAt .back (.front :: turns) (some a :: answers) =
      answersAt .back turns answers := answersAt_other other _
  constructor
  case length => rw [List.length_cons, List.length_cons, rest.length]
  case front =>
    rw [answersAt_same, rest.front, List.length_cons, turnsAt_same, List.count_cons_self,
      handedOut_cons]
  case back =>
    rw [back, rest.back, List.length_cons, turnsAt_other other, List.count_cons_of_ne other,
      List.reverse_cons, handedOut_append _ _ enough]
  case apart =>
    intro v early
    rw [answersAt_same, List.mem_cons] at early
    rw [back]
    rcases early with same | early
    · rw [rest.back, Option.some.inj same]
      exact fun late => fresh (List.mem_reverse.mp (mem_of_handedOut late))
    · exact rest.apart v early
  case all =>
    intro enough
    rw [List.length_cons, List.take_succ_cons, List.map_cons]
    exact (rest.all (Nat.le_of_succ_le_succ enough)).cons _
  case spent =>
    rw [List.length_cons, List.drop_succ_cons]
    exact rest.spent

/-- A turn at the back gets the last value. -/
theorem Drained.back_turn (rest : Drained values turns answers) (fresh : a ∉ values) :
    Drained (values ++ [a]) (.back :: turns) (some a :: answers) := by
  have other : End.back ≠ .front := by decide
  have length : (values ++ [a]).length = values.length + 1 := List.length_append
  have front : answersAt .front (.back :: turns) (some a :: answers) =
      answersAt .front turns answers := answersAt_other other _
  constructor
  case length => rw [List.length_cons, List.length_cons, rest.length]
  case front =>
    rw [front, rest.front, length, turnsAt_other other, List.count_cons_of_ne other,
      handedOut_append _ _ (turnsAt_le _ _ _)]
  case back =>
    rw [answersAt_same, rest.back, length, turnsAt_same, List.count_cons_self, List.reverse_concat,
      handedOut_cons]
  case apart =>
    intro v early
    rw [front] at early
    rw [answersAt_same, List.mem_cons, not_or]
    refine ⟨fun same => ?_, rest.apart v early⟩
    rw [rest.front, Option.some.inj same] at early
    exact fresh (mem_of_handedOut early)
  case all =>
    intro enough
    rw [length, List.take_succ_cons, List.map_append]
    rw [length, List.length_cons] at enough
    have others := rest.all (Nat.le_of_succ_le_succ enough)
    exact (others.cons _).trans (List.perm_append_singleton _ _).symm
  case spent =>
    rw [length, List.drop_succ_cons]
    exact rest.spent

/-- Each turn takes from one end of what the turns before it have left. -/
theorem drained_walk (turns : List End) (values : List α) (distinct : values.Nodup) :
    Drained values turns (walk turns values) := by
  induction turns generalizing values with
  | nil => exact drained_start values
  | cons turn turns ih =>
    rcases List.eq_nil_or_concat values with rfl | ⟨front, last, parts⟩
    · have step : walk (turn :: turns) ([] : List α) = none :: walk turns [] := by
        cases turn <;> rfl
      rw [step]
      exact (ih [] distinct).empty_turn turn
    · cases turn with
      | front =>
        cases values with
        | nil => simp at parts
        | cons a rest =>
          obtain ⟨fresh, distinct⟩ := List.nodup_cons.mp distinct
          exact (ih rest distinct).front_turn fresh
      | back =>
        rw [List.concat_eq_append] at parts
        subst parts
        obtain ⟨distinct, -, fresh⟩ := List.nodup_append.mp distinct
        have step : walk (.back :: turns) (front ++ [last]) = some last :: walk turns front := by
          change (front ++ [last]).getLast? :: walk turns (front ++ [last]).dropLast = _
          rw [List.getLast?_concat, List.dropLast_concat]
        rw [step]
        exact (ih front distinct).back_turn fun early => fresh last early last List.mem_cons_self rfl

end Lists

/-! Bitmaps. -/

namespace KeyedCursor

def Left (c : KeyedCursor) (values : List UInt32) : Prop :=
  ∃ lows, c.rest.Left lows ∧ values = lows.map (join c.key)

theorem follows : Follows Left := by
  constructor
  · intro c values here
    obtain ⟨lows, rest, rfl⟩ := here
    obtain ⟨value, kept⟩ := Container.Cursor.follows.front c.rest lows rest
    refine ⟨?_, lows.tail, kept, List.map_tail.symm⟩
    rw [List.head?_map, ← value]
    rfl
  · intro c values here
    obtain ⟨lows, rest, rfl⟩ := here
    obtain ⟨value, kept⟩ := Container.Cursor.follows.back c.rest lows rest
    refine ⟨?_, lows.dropLast, kept, List.map_dropLast.symm⟩
    rw [List.getLast?_map, ← value]
    rfl

end KeyedCursor

namespace Bitmap

variable {b : Bitmap}

instance : DoubleEnded Cursor UInt32 := ⟨Cursor.next, Cursor.nextBack⟩

def Cursor.Left : Cursor → List UInt32 → Prop :=
  Flattened.Left KeyedCursor.Left KeyedCursor.ofEntry
    fun e => e.container.values.toList.map (join e.key)

theorem Cursor.follows : Follows Cursor.Left := Flattened.follows KeyedCursor.follows

theorem left_cursor (formed : ∀ e ∈ b.entries.toList, e.container.WellFormed) :
    b.cursor.Left b.values.toList := by
  rw [toList_values]
  apply Flattened.left_ofArray
  intro e member
  exact ⟨_, (formed e (Array.mem_toList_iff.mpr member)).left_cursor, rfl⟩

theorem contains_iff (regular : Regular g b.entries.toList) (v : UInt32) :
    b.contains v = true ↔ b.Has v := by
  rw [contains, Option.any_eq_true, Has]
  constructor
  · intro found
    obtain ⟨c, under, inside⟩ := found
    have member := (container?_eq_some_iff regular.ascending).mp under
    exact ⟨_, member, rfl, ((regular.good _ member).formed.contains_iff _).mp inside⟩
  · intro held
    obtain ⟨e, member, key, inside⟩ := held
    refine ⟨e.container, (container?_eq_some_iff regular.ascending).mpr ?_, ?_⟩
    · rwa [← key]
    · exact ((regular.good e member).formed.contains_iff _).mpr inside

/-- Turns at both ends share out the values of a well-formed bitmap, whatever its encodings: the
ascending list of what it contains. -/
theorem drained_cursor (b : Bitmap) (formed : b.WellFormed) (turns : List End) :
    b.values.toList.Pairwise (· < ·) ∧ (∀ v, v ∈ b.values ↔ b.contains v = true) ∧
      b.values.size = b.cardinality ∧ Drained b.values.toList turns (walk turns b.cursor) := by
  have regular := wellFormed_iff.mp formed
  have formedAll : ∀ e ∈ b.entries.toList, e.container.WellFormed :=
    fun e member => (regular.good e member).formed
  have ascending := values_ascending regular
  refine ⟨ascending, fun v => ?_, size_values formedAll, ?_⟩
  · rw [mem_values formedAll, contains_iff regular]
  · rw [Cursor.follows.walk_eq turns _ _ (left_cursor formedAll)]
    exact drained_walk turns _ (ascending.imp UInt32.ne_of_lt)

/-- A list, a run and sparse bits, with the last values of each half taken by the other end. -/
theorem drained_cursor_crossing :
    let b : Bitmap := ⟨#[⟨0, .array ⟨#[1, 7]⟩⟩, ⟨2, .runs ⟨#[⟨9, 0⟩]⟩⟩,
      ⟨3, .bits (.ofSortedValues #[0, 65535])⟩]⟩
    let turns : List End := [.back, .front, .back, .back, .front, .front, .back]
    b.WellFormed ∧
      answersAt .front turns (walk turns b.cursor) = [some 1, some 7, none] ∧
      answersAt .back turns (walk turns b.cursor) =
        [some 262143, some 196608, some 131081, none] := by
  intro b turns
  have sparse : (Container.bits (.ofSortedValues #[0, 65535])).WellFormed :=
    BitSet.wellFormed_ofWords _
  have pair : (Container.bits (.ofSortedValues #[0, 65535])).values.toList = [0, 65535] := by
    apply List.Pairwise.eq_of_mem_iff sparse.values_ascending (by decide)
    intro v
    rw [Array.mem_toList_iff, sparse.mem_values, Container.mem_bits, BitSet.mem_ofSortedValues,
      ← Array.mem_toList_iff]
  have some : (Container.bits (.ofSortedValues #[0, 65535])).isEmpty = false :=
    Container.isEmpty_eq_false sparse 0 ((BitSet.mem_ofSortedValues _ _).mpr (by simp))
  have formed : b.WellFormed := by
    refine ⟨by decide, ?_⟩
    simp only [b, List.mem_toArray, List.forall_mem_cons, List.not_mem_nil, false_implies,
      implies_true, and_true]
    exact ⟨by decide, by decide, sparse, some⟩
  have single : (Container.runs ⟨#[⟨9, 0⟩]⟩).values.toList = [9] := by cbv
  have listed : b.values.toList = [1, 7, 131081, 196608, 262143] := by
    rw [toList_values]
    simp only [b, List.flatMap_cons, List.flatMap_nil, pair, single]
    rfl
  obtain ⟨-, -, -, drained⟩ := drained_cursor b formed turns
  rw [listed] at drained
  exact ⟨formed, drained.front, drained.back⟩

end Bitmap

end Roaring
