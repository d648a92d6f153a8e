import Mathlib.Data.List.Induction
import Roaring.Proofs.Words.Basic
import Roaring.Cursor

/-! Cursors that are taken from at both ends, compared with the list of what they have left. A step
of the cursor and the same step of the list yield the same and leave both in the relation, whatever
the order in which the ends take turns. -/
namespace Roaring

inductive End where
  | front
  | back
deriving DecidableEq

variable {σ α : Type}

def End.take [DoubleEnded σ α] : End → σ → Option α × σ
  | front => DoubleEnded.next
  | back => DoubleEnded.nextBack

def walk [DoubleEnded σ α] : List End → σ → List (Option α)
  | [], _ => []
  | turn :: turns, c => (turn.take c).1 :: walk turns (turn.take c).2

/-- A list is what it has left. -/
instance : DoubleEnded (List α) α :=
  ⟨fun values => (values.head?, values.tail), fun values => (values.getLast?, values.dropLast)⟩

/-- The outcome of a step is that of taking one end off the list of what was left. -/
structure Stepped (left : σ → List α → Prop) (outcome : Option α × σ) (value : Option α)
    (rest : List α) : Prop where
  value : outcome.1 = value
  rest : left outcome.2 rest

/-- A relation between cursors and what they have left that steps keep. -/
structure Follows [DoubleEnded σ α] (left : σ → List α → Prop) : Prop where
  front : ∀ c values, left c values →
    Stepped left (DoubleEnded.next c) values.head? values.tail
  back : ∀ c values, left c values →
    Stepped left (DoubleEnded.nextBack c) values.getLast? values.dropLast

theorem Follows.take [DoubleEnded σ α] {left : σ → List α → Prop} (follows : Follows left)
    (turn : End) (c : σ) (values : List α) (here : left c values) :
    Stepped left (turn.take c) (turn.take values).1 (turn.take values).2 := by
  cases turn with
  | front => exact follows.front c values here
  | back => exact follows.back c values here

theorem Follows.walk_eq [DoubleEnded σ α] {left : σ → List α → Prop} (follows : Follows left)
    (turns : List End) (c : σ) (values : List α) (here : left c values) :
    walk turns c = walk turns values := by
  induction turns generalizing c values with
  | nil => rfl
  | cons turn turns ih =>
    have step := follows.take turn c values here
    rw [walk, walk, step.value, ih _ _ step.rest]

/-- What the first `n` steps from the front yield. -/
theorem walk_front (n : Nat) (values : List α) :
    walk (List.replicate n End.front) values = (List.range n).map (values[·]?) := by
  induction n generalizing values with
  | zero => rfl
  | succ n ih =>
    rw [List.replicate_succ, List.range_succ_eq_map, List.map_cons, List.map_map]
    change values.head? :: walk _ values.tail = _
    rw [ih, List.head?_eq_getElem?]
    congr 1
    apply List.map_congr_left
    intro i _
    exact List.getElem?_tail

/-! Slices and runs. -/

namespace Slice

def Left (s : Slice α) (values : List α) : Prop :=
  ∃ before behind, s.items.toList = before ++ (values ++ behind) ∧ s.lo = before.length ∧
    s.hi = before.length + values.length

theorem left_ofArray (items : Array α) : (ofArray items).Left items.toList :=
  ⟨[], [], by simp [ofArray], rfl, by simp [ofArray]⟩

theorem follows : Follows (Left (α := α)) := by
  constructor
  · intro s values here
    obtain ⟨before, behind, items, lo, hi⟩ := here
    change Stepped Left s.next _ _
    rw [next]
    cases values with
    | nil =>
      rw [List.length_nil] at hi
      rw [dif_neg (by omega)]
      exact ⟨rfl, before, behind, items, lo, hi⟩
    | cons a values =>
      rw [List.length_cons] at hi
      have inside : s.lo < s.items.toList.length := by
        rw [items]
        simp [lo]
      have first : s.items.toList[s.lo] = a := by simp [items, lo]
      rw [dif_pos (by omega)]
      refine ⟨congrArg some first, before ++ [a], behind, by simp [items], ?_, ?_⟩
      · simp [lo]
      · rw [List.length_append, List.length_singleton, List.tail_cons]
        change s.hi = _
        omega
  · intro s values here
    obtain ⟨before, behind, items, lo, hi⟩ := here
    change Stepped Left s.nextBack _ _
    rw [nextBack]
    rcases List.eq_nil_or_concat values with rfl | ⟨values, a, rfl⟩
    · rw [List.length_nil] at hi
      rw [dif_neg (by omega)]
      exact ⟨rfl, before, behind, items, lo, hi⟩
    · rw [List.concat_eq_append] at items hi ⊢
      rw [List.length_append, List.length_singleton] at hi
      have index : s.hi - 1 = before.length + values.length := by omega
      have inside : s.hi - 1 < s.items.toList.length := by
        rw [items]
        simp [index]
      have last : s.items.toList[s.hi - 1] = a := by simp [items, index]
      rw [dif_pos (by omega), List.getLast?_concat, List.dropLast_concat]
      exact ⟨congrArg some last, before, a :: behind, by simp [items], lo, index⟩

end Slice

namespace RunCursor

def Left (c : RunCursor) (values : List UInt16) : Prop :=
  values = (List.range' c.lo (c.hi - c.lo)).map Nat.toUInt16

theorem follows : Follows Left := by
  constructor
  · intro c values here
    subst here
    change Stepped Left c.next _ _
    rw [next]
    split
    · rename_i some
      have count : c.hi - c.lo = c.hi - (c.lo + 1) + 1 := by omega
      rw [count, List.range'_succ]
      exact ⟨rfl, rfl⟩
    · rename_i none
      have count : c.hi - c.lo = 0 := by omega
      rw [count]
      exact ⟨rfl, by rw [Left, count]; rfl⟩
  · intro c values here
    subst here
    change Stepped Left c.nextBack _ _
    rw [nextBack]
    split
    · rename_i some
      have count : c.hi - c.lo = c.hi - 1 - c.lo + 1 := by omega
      have last : c.lo + (c.hi - 1 - c.lo) = c.hi - 1 := by omega
      rw [count, List.range'_1_concat, List.map_append, List.map_singleton, List.getLast?_concat,
        List.dropLast_concat, last]
      exact ⟨rfl, rfl⟩
    · rename_i none
      have count : c.hi - c.lo = 0 := by omega
      rw [count]
      exact ⟨rfl, by rw [Left, count]; rfl⟩

end RunCursor

/-! Bits. -/

namespace Words

def window (ws : Words) (lo hi : Nat) : List UInt16 :=
  ((List.range' lo (hi - lo)).filter ws.test).map Nat.toUInt16

theorem exists_of_window {ws : Words} {lo hi : Nat} (some : ws.window lo hi ≠ []) :
    ∃ p, lo ≤ p ∧ p < hi ∧ ws.test p = true := by
  obtain ⟨v, member⟩ := List.exists_mem_of_ne_nil _ some
  obtain ⟨p, inside, -⟩ := List.mem_map.mp member
  obtain ⟨bounds, set⟩ := List.mem_filter.mp inside
  have bounds := List.mem_range'_1.mp bounds
  exact ⟨p, by omega, by omega, set⟩

theorem window_split (ws : Words) {lo p hi : Nat} (low : lo ≤ p) (high : p < hi)
    (set : ws.test p = true) :
    ws.window lo hi = ws.window lo p ++ p.toUInt16 :: ws.window (p + 1) hi := by
  have parts : List.range' lo (hi - lo) =
      List.range' lo (p - lo) ++ p :: List.range' (p + 1) (hi - (p + 1)) := by
    rw [← List.range'_succ, show p = lo + (p - lo) by omega, Nat.add_sub_cancel_left,
      List.range'_append_1]
    congr 1
    omega
  rw [window, parts, List.filter_append, List.filter_cons_of_pos set, List.map_append, List.map_cons,
    window, window]

theorem window_eq_nil {ws : Words} {lo hi : Nat}
    (clear : ∀ p, lo ≤ p → p < hi → ws.test p = false) : ws.window lo hi = [] := by
  by_contra some
  obtain ⟨p, low, high, set⟩ := exists_of_window some
  rw [clear p low high] at set
  contradiction

end Words

namespace BitCursor

/-- The copy at the front, of the word at an index: it has the bits from a position on. -/
structure FrontAt (words : Words) (i : Nat) (w : Word) (lo : Nat) : Prop where
  low : 64 * i ≤ lo
  high : lo ≤ 64 * (i + 1)
  bits : ∀ j, j < 64 → w.test j = (decide (lo ≤ 64 * i + j) && words.test (64 * i + j))

/-- The copy at the back has the bits below a position. -/
structure BackAt (words : Words) (i : Nat) (w : Word) (hi : Nat) : Prop where
  low : 64 * i ≤ hi
  high : hi ≤ 64 * (i + 1)
  bits : ∀ j, j < 64 → w.test j = (decide (64 * i + j < hi) && words.test (64 * i + j))

section Copies

variable {words : Words} {i : Nat} {w : Word} {lo hi : Nat}

theorem frontAt_word (words : Words) (i : Nat) : FrontAt words i (words.word i) (64 * i) := by
  refine ⟨Nat.le_refl _, by omega, fun j inside => ?_⟩
  rw [words.test_block i j inside]
  simp

theorem backAt_word (words : Words) (i : Nat) : BackAt words i (words.word i) (64 * (i + 1)) := by
  refine ⟨by omega, Nat.le_refl _, fun j inside => ?_⟩
  rw [words.test_block i j inside]
  simp [show 64 * i + j < 64 * (i + 1) by omega]

/-- A copy without bits has nothing more to give from its word. -/
theorem FrontAt.clear (here : FrontAt words i 0 lo) (q : Nat) (low : lo ≤ q)
    (high : q < 64 * (i + 1)) : words.test q = false := by
  have first := here.low
  have bit := here.bits (q - 64 * i) (by omega)
  rw [Word.test_zero, show 64 * i + (q - 64 * i) = q by omega] at bit
  simpa [low] using bit.symm

theorem BackAt.clear (here : BackAt words i 0 hi) (q : Nat) (low : 64 * i ≤ q) (high : q < hi) :
    words.test q = false := by
  have last := here.high
  have bit := here.bits (q - 64 * i) (by omega)
  rw [Word.test_zero, show 64 * i + (q - 64 * i) = q by omega] at bit
  simpa [high] using bit.symm

/-- The lowest bit of the copy is the first set position that is left, and is cleared. -/
theorem FrontAt.drop (here : FrontAt words i w lo) (some : w ≠ 0) :
    lo ≤ 64 * i + w.trailingZeros ∧ words.test (64 * i + w.trailingZeros) = true ∧
      (∀ q, lo ≤ q → q < 64 * i + w.trailingZeros → words.test q = false) ∧
      FrontAt words i (w &&& (w - 1)) (64 * i + w.trailingZeros + 1) := by
  obtain ⟨inside, set, clear⟩ := Word.trailingZeros_spec w some
  have bit := here.bits _ inside
  rw [set, eq_comm, Bool.and_eq_true, decide_eq_true_eq] at bit
  have first := here.low
  have below (j : Nat) (low : lo ≤ 64 * i + j) (less : j < w.trailingZeros) :
      words.test (64 * i + j) = false := by
    have unset := here.bits j (by omega)
    rw [clear j less] at unset
    simpa [low] using unset.symm
  refine ⟨bit.1, bit.2, fun q low less => ?_, by omega, by omega, fun j insideJ => ?_⟩
  · have found := below (q - 64 * i) (by omega) (by omega)
    rwa [show 64 * i + (q - 64 * i) = q by omega] at found
  · rw [Word.test_dropLowest w some j insideJ]
    rcases Nat.lt_trichotomy j w.trailingZeros with less | same | more
    · rw [clear j less]
      simp [show ¬ 64 * i + w.trailingZeros + 1 ≤ 64 * i + j by omega]
    · simp [same]
    · rw [here.bits j insideJ]
      simp [show j ≠ w.trailingZeros by omega, show lo ≤ 64 * i + j by omega,
        show 64 * i + w.trailingZeros + 1 ≤ 64 * i + j by omega]

theorem BackAt.drop (here : BackAt words i w hi) (some : w ≠ 0) :
    64 * i + (63 - w.leadingZeros) < hi ∧
      words.test (64 * i + (63 - w.leadingZeros)) = true ∧
      (∀ q, 64 * i + (63 - w.leadingZeros) < q → q < hi → words.test q = false) ∧
      BackAt words i (w &&& ~~~(Word.single (63 - w.leadingZeros)))
        (64 * i + (63 - w.leadingZeros)) := by
  obtain ⟨-, set, clear⟩ := Word.leadingZeros_spec w some
  have inside : 63 - w.leadingZeros < 64 := by omega
  generalize 63 - w.leadingZeros = top at *
  have bit := here.bits top inside
  rw [set, eq_comm, Bool.and_eq_true, decide_eq_true_eq] at bit
  have last := here.high
  refine ⟨bit.1, bit.2, fun q more high => ?_, by omega, by omega, fun j insideJ => ?_⟩
  · have unset := here.bits (q - 64 * i) (by omega)
    rw [clear _ (by omega) (by omega), show 64 * i + (q - 64 * i) = q by omega] at unset
    simpa [high] using unset.symm
  · rw [Word.test_and _ _ j insideJ, Word.test_not _ j insideJ, Word.test_single top j inside insideJ]
    rcases Nat.lt_trichotomy j top with less | same | more
    · rw [here.bits j insideJ]
      simp [show j ≠ top by omega, show 64 * i + j < hi by omega, less]
    · simp [same]
    · rw [clear j more insideJ]
      simp [show ¬ j < top by omega]

/-- The word at which the front finds the next bit; it has passed clear positions only. -/
theorem FrontAt.ahead (here : FrontAt words i w lo) :
    match ahead words i w with
    | some (j, x) => x ≠ 0 ∧ ∃ first, lo ≤ first ∧ FrontAt words j x first ∧
        ∀ q, lo ≤ q → q < first → words.test q = false
    | none => ∀ q, lo ≤ q → words.test q = false := by
  induction i, w using ahead.induct words generalizing lo with
  | case1 i w some =>
    rw [BitCursor.ahead, if_pos some]
    exact ⟨by simpa using some, lo, Nat.le_refl _, here, by omega⟩
  | case2 i w zero inside ih =>
    obtain rfl : w = 0 := by simpa using zero
    have found := ih (words.word_of_lt (i + 1) inside ▸ frontAt_word words (i + 1))
    rw [BitCursor.ahead, if_neg zero, dif_pos inside]
    have bound := here.high
    have passed (q : Nat) (low : lo ≤ q)
        (later : 64 * (i + 1) ≤ q → words.test q = false) : words.test q = false := by
      rcases Nat.lt_or_ge q (64 * (i + 1)) with early | late
      · exact here.clear q low early
      · exact later late
    split
    · rename_i j x outcome
      rw [outcome] at found
      obtain ⟨some, first, low, there, clear⟩ := found
      exact ⟨some, first, by omega, there, fun q lowQ less =>
        passed q lowQ fun late => clear q late less⟩
    · rename_i outcome
      rw [outcome] at found
      exact fun q low => passed q low (found q)
  | case3 i w zero last =>
    obtain rfl : w = 0 := by simpa using zero
    rw [BitCursor.ahead, if_neg zero, dif_neg last]
    intro q low
    rcases Nat.lt_or_ge q (64 * (i + 1)) with early | late
    · exact here.clear q low early
    · exact words.test_of_le q (by omega)

theorem BackAt.behind (here : BackAt words i w hi) :
    match behind words i w with
    | some (j, x) => x ≠ 0 ∧ ∃ last, last ≤ hi ∧ BackAt words j x last ∧
        ∀ q, last ≤ q → q < hi → words.test q = false
    | none => ∀ q, q < hi → words.test q = false := by
  induction i generalizing w hi with
  | zero =>
    by_cases some : w != 0
    · rw [BitCursor.behind, if_pos some]
      exact ⟨by simpa using some, hi, Nat.le_refl _, here, by omega⟩
    · obtain rfl : w = 0 := by simpa using some
      rw [BitCursor.behind, if_neg some]
      exact fun q high => here.clear q (by omega) high
  | succ i ih =>
    by_cases some : w != 0
    · rw [BitCursor.behind, if_pos some]
      exact ⟨by simpa using some, hi, Nat.le_refl _, here, by omega⟩
    · obtain rfl : w = 0 := by simpa using some
      have found := ih (backAt_word words i)
      rw [BitCursor.behind, if_neg some]
      have bound := here.low
      have passed (q : Nat) (high : q < hi)
          (earlier : q < 64 * (i + 1) → words.test q = false) : words.test q = false := by
        rcases Nat.lt_or_ge q (64 * (i + 1)) with early | late
        · exact earlier early
        · exact here.clear q late high
      split
      · rename_i j x outcome
        rw [outcome] at found
        obtain ⟨nonzero, last, high, there, clear⟩ := found
        exact ⟨nonzero, last, by omega, there, fun q low highQ =>
          passed q highQ fun early => clear q low early⟩
      · rename_i outcome
        rw [outcome] at found
        exact fun q high => passed q high (found q)

end Copies

def Left (c : BitCursor) (values : List UInt16) : Prop :=
  ∃ lo hi, FrontAt c.words c.frontIndex c.front lo ∧ BackAt c.words c.backIndex c.back hi ∧
    values = c.words.window lo hi ∧ c.remaining = values.length

variable {c : BitCursor} {values : List UInt16}

theorem left_ofWords (words : Words) :
    (ofWords words (words.window 0 65536).length).Left (words.window 0 65536) :=
  ⟨0, 65536, frontAt_word words 0, backAt_word words 1023, rfl, rfl⟩

theorem exists_set {words : Words} {lo hi remaining : Nat}
    (count : remaining = (words.window lo hi).length) (some : remaining ≠ 0) :
    ∃ p, lo ≤ p ∧ p < hi ∧ words.test p = true := by
  apply Words.exists_of_window
  intro spent
  rw [spent] at count
  exact some count

/-- As long as the counter is not used up there is a set position between the sides, so the side
that is moved stays in front of, or behind, the other. -/
theorem follows : Follows Left := by
  constructor
  · intro c values here
    change Stepped Left c.next _ _
    obtain ⟨lo, hi, atFront, atBack, rfl, count⟩ := here
    rw [next]
    split
    · rename_i none
      have spent := List.eq_nil_of_length_eq_zero (count.symm.trans none)
      rw [spent]
      exact ⟨rfl, lo, hi, atFront, atBack, spent.symm, none⟩
    · rename_i some
      obtain ⟨q, low, high, set⟩ := exists_set count some
      have scan := atFront.ahead
      split
      · rename_i outcome
        rw [outcome] at scan
        simp [scan q low] at set
      · rename_i i w outcome
        rw [outcome] at scan
        obtain ⟨nonzero, first, after, atFront, passed⟩ := scan
        obtain ⟨behind, setP, clear, dropped⟩ := atFront.drop nonzero
        generalize 64 * i + w.trailingZeros = p at *
        have clear (r : Nat) (lowR : lo ≤ r) (less : r < p) : c.words.test r = false := by
          rcases Nat.lt_or_ge r first with early | late
          · exact passed r lowR early
          · exact clear r late less
        have first : p ≤ q := by
          by_contra later
          simp [clear q low (by omega)] at set
        have parts := c.words.window_split (Nat.le_trans after behind)
          (Nat.lt_of_le_of_lt first high) setP
        rw [Words.window_eq_nil clear, List.nil_append] at parts
        rw [parts] at count ⊢
        exact ⟨rfl, p + 1, hi, dropped, atBack, rfl, by simp [count]⟩
  · intro c values here
    change Stepped Left c.nextBack _ _
    obtain ⟨lo, hi, atFront, atBack, rfl, count⟩ := here
    rw [nextBack]
    split
    · rename_i none
      have spent := List.eq_nil_of_length_eq_zero (count.symm.trans none)
      rw [spent]
      exact ⟨rfl, lo, hi, atFront, atBack, spent.symm, none⟩
    · rename_i some
      obtain ⟨q, low, high, set⟩ := exists_set count some
      have scan := atBack.behind
      split
      · rename_i outcome
        rw [outcome] at scan
        simp [scan q high] at set
      · rename_i i w outcome
        rw [outcome] at scan
        obtain ⟨nonzero, last, before, atBack, passed⟩ := scan
        obtain ⟨below, setP, clear, dropped⟩ := atBack.drop nonzero
        simp only
        generalize 64 * i + (63 - w.leadingZeros) = p at *
        have clear (r : Nat) (more : p + 1 ≤ r) (highR : r < hi) : c.words.test r = false := by
          rcases Nat.lt_or_ge r last with early | late
          · exact clear r more early
          · exact passed r late highR
        have last : q ≤ p := by
          by_contra earlier
          simp [clear q (by omega) high] at set
        have parts := c.words.window_split (Nat.le_trans low last)
          (Nat.lt_of_lt_of_le below before) setP
        rw [Words.window_eq_nil clear] at parts
        rw [parts] at count ⊢
        rw [List.getLast?_concat, List.dropLast_concat]
        exact ⟨rfl, lo, p, atFront, dropped, rfl, by simp [count]⟩

end BitCursor

/-! A sequence of parts. -/

namespace Flattened

variable {ι : Type}

/-- The steps of a sequence of parts that are looked into by `look`. -/
@[reducible] def steps [DoubleEnded σ α] (look : ι → σ) : DoubleEnded (Flattened ι σ) α :=
  ⟨next look, nextBack look⟩

/-- A part that is under way, or none with nothing left. -/
def Under (left : σ → List α → Prop) : Option σ → List α → Prop
  | none, values => values = []
  | some c, values => left c values

/-- What is left of the part at the front, of the parts that were not looked into, and of the part
at the back. -/
structure Parts (left : σ → List α → Prop) (look : ι → σ) (whole : ι → List α)
    (c : Flattened ι σ) (front : List α) (middle : List ι) (back : List α) : Prop where
  underFront : Under left c.front front
  unseen : c.parts.Left middle
  underBack : Under left c.back back
  look : ∀ part ∈ middle, left (look part) (whole part)

def Left (left : σ → List α → Prop) (look : ι → σ) (whole : ι → List α) (c : Flattened ι σ)
    (values : List α) : Prop :=
  ∃ front middle back, Parts left look whole c front middle back ∧
    values = front ++ (middle.flatMap whole ++ back)

variable {left : σ → List α → Prop} {look : ι → σ} {whole : ι → List α}

theorem left_ofArray (parts : Array ι) (each : ∀ part ∈ parts, left (look part) (whole part)) :
    Left left look whole (ofArray parts) (parts.toList.flatMap whole) := by
  refine ⟨[], parts.toList, [], ⟨rfl, Slice.left_ofArray parts, rfl, fun part member => ?_⟩, by simp⟩
  exact each part (Array.mem_toList_iff.mp member)

variable [DoubleEnded σ α]

theorem stepPart_front (follows : Follows left) (part : Option σ) (values : List α)
    (here : Under left part values) :
    Stepped (Under left) (stepPart DoubleEnded.next part) values.head? values.tail := by
  cases part with
  | none =>
    subst here
    exact ⟨rfl, rfl⟩
  | some c =>
    obtain ⟨value, rest⟩ := follows.front c values here
    rw [stepPart]
    split
    · rename_i a kept outcome
      rw [outcome] at value rest
      exact ⟨value, rest⟩
    · rename_i spent outcome
      rw [outcome] at value
      obtain rfl := List.head?_eq_none_iff.mp value.symm
      exact ⟨rfl, rfl⟩

theorem stepPart_back (follows : Follows left) (part : Option σ) (values : List α)
    (here : Under left part values) :
    Stepped (Under left) (stepPart DoubleEnded.nextBack part) values.getLast? values.dropLast := by
  cases part with
  | none =>
    subst here
    exact ⟨rfl, rfl⟩
  | some c =>
    obtain ⟨value, rest⟩ := follows.back c values here
    rw [stepPart]
    split
    · rename_i a kept outcome
      rw [outcome] at value rest
      exact ⟨value, rest⟩
    · rename_i spent outcome
      rw [outcome] at value
      obtain rfl := List.getLast?_eq_none_iff.mp value.symm
      exact ⟨rfl, rfl⟩

theorem next_of_front {c : Flattened ι σ} {a : α} {kept : Option σ}
    (outcome : stepPart DoubleEnded.next c.front = (some a, kept)) :
    next look c = (some a, { c with front := kept }) := by
  rw [next]
  split
  · rename_i b other same
    rw [outcome] at same
    cases same
    rfl
  · rename_i other same
    rw [outcome] at same
    cases same

theorem next_of_part {c : Flattened ι σ} {part : ι} {rest : Slice ι}
    (spent : (stepPart (α := α) DoubleEnded.next c.front).1 = none)
    (taken : c.parts.next = (some part, rest)) :
    next look c = next look { c with parts := rest, front := some (look part) } := by
  rw [next]
  split
  · rename_i b other same
    rw [same] at spent
    contradiction
  · split
    · rename_i p q same
      rw [taken] at same
      cases same
      rfl
    · rename_i p same
      rw [taken] at same
      cases same

theorem next_of_back {c : Flattened ι σ}
    (spent : (stepPart (α := α) DoubleEnded.next c.front).1 = none) (all : c.parts.next.1 = none) :
    next look c = ((stepPart DoubleEnded.next c.back).1,
      { c with front := none, back := (stepPart (α := α) DoubleEnded.next c.back).2 }) := by
  rw [next]
  split
  · rename_i b other same
    rw [same] at spent
    contradiction
  · split
    · rename_i p q same
      rw [same] at all
      contradiction
    · rfl

/-- Each part that is looked into is one part less in the middle; the part at the back comes last. -/
theorem next_left (follows : Follows left) (c : Flattened ι σ) (front : List α) (middle : List ι)
    (back : List α) (parts : Parts left look whole c front middle back) :
    Stepped (Left left look whole) (next look c) (front ++ (middle.flatMap whole ++ back)).head?
      (front ++ (middle.flatMap whole ++ back)).tail := by
  induction middle generalizing c front with
  | nil =>
    obtain ⟨value, kept⟩ := stepPart_front follows c.front front parts.underFront
    cases front with
    | cons a front =>
      rw [next_of_front (Prod.ext value rfl)]
      exact ⟨rfl, front, [], back, { parts with underFront := kept }, rfl⟩
    | nil =>
      have all := Slice.follows.front c.parts [] parts.unseen
      obtain ⟨valueBack, keptBack⟩ := stepPart_front follows c.back back parts.underBack
      rw [next_of_back value all.value]
      exact ⟨valueBack, [], [], back.tail, ⟨rfl, parts.unseen, keptBack, parts.look⟩, rfl⟩
  | cons part middle ih =>
    obtain ⟨value, kept⟩ := stepPart_front follows c.front front parts.underFront
    cases front with
    | cons a front =>
      rw [next_of_front (Prod.ext value rfl)]
      exact ⟨rfl, front, part :: middle, back, { parts with underFront := kept }, rfl⟩
    | nil =>
      obtain ⟨taken, rest⟩ := Slice.follows.front c.parts (part :: middle) parts.unseen
      obtain ⟨here, later⟩ := List.forall_mem_cons.mp parts.look
      rw [next_of_part value (Prod.ext taken rfl), List.nil_append, List.flatMap_cons,
        List.append_assoc]
      exact ih _ (whole part) ⟨here, rest, parts.underBack, later⟩

theorem nextBack_of_back {c : Flattened ι σ} {a : α} {kept : Option σ}
    (outcome : stepPart DoubleEnded.nextBack c.back = (some a, kept)) :
    nextBack look c = (some a, { c with back := kept }) := by
  rw [nextBack]
  split
  · rename_i b other same
    rw [outcome] at same
    cases same
    rfl
  · rename_i other same
    rw [outcome] at same
    cases same

theorem nextBack_of_part {c : Flattened ι σ} {part : ι} {rest : Slice ι}
    (spent : (stepPart (α := α) DoubleEnded.nextBack c.back).1 = none)
    (taken : c.parts.nextBack = (some part, rest)) :
    nextBack look c = nextBack look { c with parts := rest, back := some (look part) } := by
  rw [nextBack]
  split
  · rename_i b other same
    rw [same] at spent
    contradiction
  · split
    · rename_i p q same
      rw [taken] at same
      cases same
      rfl
    · rename_i p same
      rw [taken] at same
      cases same

theorem nextBack_of_front {c : Flattened ι σ}
    (spent : (stepPart (α := α) DoubleEnded.nextBack c.back).1 = none)
    (all : c.parts.nextBack.1 = none) :
    nextBack look c = ((stepPart DoubleEnded.nextBack c.front).1,
      { c with front := (stepPart (α := α) DoubleEnded.nextBack c.front).2, back := none }) := by
  rw [nextBack]
  split
  · rename_i b other same
    rw [same] at spent
    contradiction
  · split
    · rename_i p q same
      rw [same] at all
      contradiction
    · rfl

/-- The mirror image: the part at the front comes last. -/
theorem nextBack_left (follows : Follows left) (c : Flattened ι σ) (front : List α)
    (middle : List ι) (back : List α) (parts : Parts left look whole c front middle back) :
    Stepped (Left left look whole) (nextBack look c)
      (front ++ (middle.flatMap whole ++ back)).getLast?
      (front ++ (middle.flatMap whole ++ back)).dropLast := by
  induction middle using List.reverseRecOn generalizing c back with
  | nil =>
    obtain ⟨value, kept⟩ := stepPart_back follows c.back back parts.underBack
    rcases List.eq_nil_or_concat back with rfl | ⟨back, a, rfl⟩
    · have all := Slice.follows.back c.parts [] parts.unseen
      obtain ⟨valueFront, keptFront⟩ := stepPart_back follows c.front front parts.underFront
      rw [nextBack_of_front value all.value, List.flatMap_nil, List.append_nil,
        List.append_nil]
      exact ⟨valueFront, front.dropLast, [], [], ⟨keptFront, parts.unseen, rfl, parts.look⟩,
        by simp⟩
    · rw [List.concat_eq_append, List.getLast?_concat] at value
      rw [List.concat_eq_append, List.dropLast_concat] at kept
      rw [nextBack_of_back (Prod.ext value rfl), List.concat_eq_append, ← List.append_assoc,
        ← List.append_assoc, List.getLast?_concat, List.dropLast_concat]
      exact ⟨rfl, front, [], back, { parts with underBack := kept }, by simp⟩
  | append_singleton middle part ih =>
    obtain ⟨value, kept⟩ := stepPart_back follows c.back back parts.underBack
    rcases List.eq_nil_or_concat back with rfl | ⟨back, a, rfl⟩
    · obtain ⟨taken, rest⟩ := Slice.follows.back c.parts (middle ++ [part]) parts.unseen
      obtain ⟨earlier, here⟩ := List.forall_mem_append.mp parts.look
      rw [List.getLast?_concat] at taken
      rw [List.dropLast_concat] at rest
      rw [nextBack_of_part value (Prod.ext taken rfl), List.append_nil, List.flatMap_append,
        List.flatMap_singleton]
      exact ih _ (whole part) ⟨parts.underFront, rest, here part List.mem_cons_self, earlier⟩
    · rw [List.concat_eq_append, List.getLast?_concat] at value
      rw [List.concat_eq_append, List.dropLast_concat] at kept
      rw [nextBack_of_back (Prod.ext value rfl), List.concat_eq_append, ← List.append_assoc,
        ← List.append_assoc, List.getLast?_concat, List.dropLast_concat]
      exact ⟨rfl, front, middle ++ [part], back, { parts with underBack := kept }, by simp⟩

/-- A cursor over a sequence of parts follows what the parts have left, one after the other. -/
theorem follows (each : Follows left) :
    @Follows (Flattened ι σ) α (steps look) (Left left look whole) := by
  refine @Follows.mk _ _ (steps look) _ ?_ ?_
  · rintro c values ⟨front, middle, back, parts, rfl⟩
    exact next_left each c front middle back parts
  · rintro c values ⟨front, middle, back, parts, rfl⟩
    exact nextBack_left each c front middle back parts

end Flattened

end Roaring
