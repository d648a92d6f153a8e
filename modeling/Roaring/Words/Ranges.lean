import Roaring.Cursor
import Roaring.Proofs.Word

/-! The maximal ranges of set positions, one after the other. -/
namespace Roaring

/-- A scan for ranges. It stands at a word and keeps a copy of it in which the bits that it has passed
are cleared. -/
structure RangeCursor where
  words : Words
  index : Nat
  current : Word

namespace RangeCursor

def ofWords (words : Words) : RangeCursor := ⟨words, 0, words.word 0⟩

/-- The first word behind an index that is not full. -/
def pastFull (words : Words) (i : Nat) : Option (Nat × Word) :=
  if inside : i + 1 < 1024 then
    if words[i + 1] != ~~~0 then some (i + 1, words[i + 1]) else pastFull words (i + 1)
  else none
termination_by 1024 - i

def clearLowest (w : Word) (bits : Nat) : Word := w &&& ~~~Word.ones bits

/-- Gives the range from the first bit that is left. Where it reaches the top of its word it goes on
through the words that are full. -/
def next (c : RangeCursor) : Option Span × RangeCursor :=
  match BitCursor.ahead c.words c.index c.current with
  | none => (none, { c with index := 1024, current := 0 })
  | some (i, w) =>
    let start := 64 * i + Word.trailingZeros w
    let filled := w ||| (w - 1)
    if filled = ~~~0 then
      match pastFull c.words i with
      | none => (some ⟨start, 65536⟩, { c with index := 1024, current := 0 })
      | some (j, x) =>
        let bits := Word.trailingZeros (~~~x)
        (some ⟨start, min (64 * j + bits) 65536⟩, { c with index := j, current := clearLowest x bits })
    else
      let bits := Word.trailingZeros (~~~filled)
      (some ⟨start, min (64 * i + bits) 65536⟩, { c with index := i, current := clearLowest w bits })

/-! Each range uses up a bit of the copy, or the scan moves on to a later word. -/

theorem place_of_ahead (words : Words) (i : Nat) (w : Word) :
    ∀ found ∈ BitCursor.ahead words i w, found.2 ≠ 0 ∧
      (found = (i, w) ∨ i < found.1 ∧ found.1 < 1024) := by
  induction i, w using BitCursor.ahead.induct words with
  | case1 i w some =>
    rw [BitCursor.ahead, if_pos some]
    rintro _ ⟨⟩
    exact ⟨by simpa using some, Or.inl rfl⟩
  | case2 i w zero inside ih =>
    rw [BitCursor.ahead, if_neg zero, dif_pos inside]
    intro found here
    refine ⟨(ih found here).1, Or.inr ?_⟩
    rcases (ih found here).2 with rfl | later
    · exact ⟨Nat.lt_succ_self i, inside⟩
    · exact ⟨by omega, later.2⟩
  | case3 i w zero last =>
    rw [BitCursor.ahead, if_neg zero, dif_neg last]
    intro found here
    contradiction

theorem lt_pastFull (words : Words) (i : Nat) :
    ∀ found ∈ pastFull words i, i < found.1 ∧ found.1 < 1024 := by
  induction i using pastFull.induct words with
  | case1 i inside ends =>
    rw [pastFull, dif_pos inside, if_pos ends]
    rintro _ ⟨⟩
    exact ⟨Nat.lt_succ_self i, inside⟩
  | case2 i inside full ih =>
    rw [pastFull, dif_pos inside, if_neg full]
    intro found here
    have later := ih found here
    exact ⟨by omega, later.2⟩
  | case3 i last =>
    rw [pastFull, dif_neg last]
    intro found here
    contradiction

theorem clearLowest_lt (w : Word) (nonzero : w ≠ 0) (ends : w ||| (w - 1) ≠ ~~~0) :
    (clearLowest w (Word.trailingZeros (~~~(w ||| (w - 1))))).toNat < w.toNat := by
  obtain ⟨lowest, set, -⟩ := Word.trailingZeros_spec w nonzero
  obtain ⟨inside, clear, -⟩ := Word.trailingOnes_spec _ ends
  rw [Word.test_fillBelow w nonzero _ inside, Bool.or_eq_false_iff, decide_eq_false_iff_not] at clear
  have cleared : (clearLowest w (Word.trailingZeros (~~~(w ||| (w - 1))))).test w.trailingZeros =
      false := by
    rw [clearLowest, Word.test_and _ _ _ lowest, Word.test_not _ _ lowest, Word.test_ones _ _ lowest,
      decide_eq_true (by omega)]
    simp
  refine Nat.lt_of_le_of_ne ?_ fun same => ?_
  · rw [clearLowest, UInt64.toNat_and]
    exact Nat.and_le_left
  · rw [UInt64.toNat_inj.mp same, set] at cleared
    contradiction

theorem next_decreases (c rest : RangeCursor) (range : Span) (step : c.next = (some range, rest)) :
    Prod.Lex (· < ·) (· < ·) (1024 - rest.index, rest.current.toNat)
      (1024 - c.index, c.current.toNat) := by
  rw [Prod.lex_def]
  rw [next] at step
  split at step
  · simp at step
  · rename_i i w found
    obtain ⟨nonzero, place⟩ := place_of_ahead c.words c.index c.current _ found
    have positive : 0 < w.toNat := Nat.pos_of_ne_zero fun zero => nonzero (UInt64.toNat_inj.mp zero)
    simp only [Prod.mk.injEq] at place
    dsimp only at step
    split at step
    · split at step
      · obtain ⟨-, rfl⟩ := Prod.mk.inj step
        -- behind the last word the copy is all that is left
        rcases Nat.lt_or_ge c.index 1024 with inside | past
        · left
          simp only
          omega
        · rcases place with ⟨rfl, rfl⟩ | later
          · exact Or.inr ⟨by simp only; omega, positive⟩
          · omega
      · rename_i j x further
        obtain ⟨-, rfl⟩ := Prod.mk.inj step
        have later := lt_pastFull c.words i _ further
        simp only at later ⊢
        left
        omega
    · rename_i ends
      obtain ⟨-, rfl⟩ := Prod.mk.inj step
      have less := clearLowest_lt w nonzero ends
      rcases place with ⟨rfl, rfl⟩ | later
      · exact Or.inr ⟨rfl, less⟩
      · left
        simp only
        omega

def drainOnto (c : RangeCursor) (out : Array Span) : Array Span :=
  match step : c.next with
  | (none, _) => out
  | (some range, rest) =>
    have := c.next_decreases rest range step
    rest.drainOnto (out.push range)
termination_by (1024 - c.index, c.current.toNat)
decreasing_by assumption

end RangeCursor

namespace Words

/-- The maximal ranges of set positions, in ascending order. -/
def ranges (ws : Words) : Array Span := (RangeCursor.ofWords ws).drainOnto #[]

end Words

end Roaring
