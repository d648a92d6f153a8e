import Mathlib.Data.List.Sort
import Roaring.Words.Ranges
import Roaring.Proofs.Cursor
import Roaring.Proofs.Run.Canonical
import Roaring.Proofs.Words.RunStarts

/-! The scan for ranges gives the maximal ranges of set positions, in ascending order, and nothing
behind the last of them. As runs they are the canonical list that covers what is set. The count of
run starts, which looks at two words at a time only, is their number. -/
namespace Roaring

namespace Words

/-- A stretch of set positions, with a clear position or an end of the domain on either side. -/
structure MaximalRange (ws : Words) (range : Span) : Prop where
  nonempty : range.start < range.stop
  inside : range.stop ≤ 65536
  set : ∀ p ∈ range, ws.test p = true
  before : ∀ p, p + 1 = range.start → ws.test p = false
  behind : ws.test range.stop = false

/-- The first range of set positions from a position on, up to the next clear position. -/
structure FirstRange (ws : Words) (p : Nat) (range : Span) : Prop where
  low : p ≤ range.start
  clear : ∀ q, p ≤ q → q < range.start → ws.test q = false
  nonempty : range.start < range.stop
  inside : range.stop ≤ 65536
  set : ∀ q ∈ range, ws.test q = true
  behind : ws.test range.stop = false

end Words

namespace RangeCursor

variable {c : RangeCursor} {p : Nat}

/-- The scan has passed the positions below a given one. -/
def At (c : RangeCursor) (p : Nat) : Prop := BitCursor.FrontAt c.words c.index c.current p

theorem at_ofWords (words : Words) : (ofWords words).At 0 := BitCursor.frontAt_word words 0

/-- Behind the last word there is nothing left. -/
theorem at_end (words : Words) : At ⟨words, 1024, 0⟩ 65536 := by
  refine ⟨Nat.le_refl _, by simp only; omega, fun j inside => ?_⟩
  rw [Word.test_zero, words.test_of_le _ (by simp only; omega), Bool.and_false]

theorem frontAt_clearLowest {words : Words} {i lo bits : Nat} {w : Word}
    (here : BitCursor.FrontAt words i w lo) (low : lo ≤ 64 * i + bits) (inside : bits ≤ 64) :
    BitCursor.FrontAt words i (clearLowest w bits) (64 * i + bits) := by
  refine ⟨by omega, by omega, fun j insideJ => ?_⟩
  rw [clearLowest, Word.test_and _ _ j insideJ, Word.test_not _ j insideJ,
    Word.test_ones _ j insideJ, here.bits j insideJ]
  rcases Nat.lt_or_ge j bits with less | more
  · simp [less]
  · simp [show ¬ j < bits by omega, show lo ≤ 64 * i + j by omega, more]

/-- The words that are skipped are full. -/
theorem pastFull_spec (words : Words) (i : Nat) :
    match pastFull words i with
    | some (j, x) => x = words.word j ∧ x ≠ ~~~0 ∧
        ∀ q, 64 * (i + 1) ≤ q → q < 64 * j → words.test q = true
    | none => ∀ q, 64 * (i + 1) ≤ q → q < 65536 → words.test q = true := by
  induction i using pastFull.induct words with
  | case1 i inside ends =>
    rw [pastFull, dif_pos inside, if_pos ends]
    exact ⟨(words.word_of_lt (i + 1) inside).symm, by simpa using ends, by omega⟩
  | case2 i inside full ih =>
    have filled : words.word (i + 1) = ~~~0 := by
      rw [words.word_of_lt (i + 1) inside]
      simpa using full
    have here (q : Nat) (low : 64 * (i + 1) ≤ q) (high : q < 64 * (i + 1 + 1)) :
        words.test q = true := by
      rw [Words.test, show q / 64 = i + 1 by omega, filled, Word.test_not _ _ (by omega),
        Word.test_zero, Bool.not_false]
    have both (limit : Nat) (behind : ∀ q, 64 * (i + 1 + 1) ≤ q → q < limit → words.test q = true)
        (q : Nat) (low : 64 * (i + 1) ≤ q) (high : q < limit) : words.test q = true := by
      rcases Nat.lt_or_ge q (64 * (i + 1 + 1)) with early | late
      · exact here q low early
      · exact behind q late high
    rw [pastFull, dif_pos inside, if_neg full]
    split
    · rename_i j x found
      rw [found] at ih
      exact ⟨ih.1, ih.2.1, both _ ih.2.2⟩
    · rename_i none
      rw [none] at ih
      exact both _ ih
  | case3 i last =>
    rw [pastFull, dif_neg last]
    intro q low high
    omega

/-- The positions of a word from its lowest set bit up to the first clear bit behind that. -/
theorem set_of_filled {words : Words} {i lo : Nat} {w : Word}
    (here : BitCursor.FrontAt words i w lo) (nonzero : w ≠ 0) (j : Nat) (inside : j < 64)
    (low : w.trailingZeros ≤ j) :
    words.test (64 * i + j) = (w ||| (w - 1)).test j := by
  obtain ⟨lowest, set, -⟩ := Word.trailingZeros_spec w nonzero
  have first := here.bits _ lowest
  rw [set, eq_comm, Bool.and_eq_true, decide_eq_true_eq] at first
  have bit := here.bits j inside
  rw [decide_eq_true (by omega), Bool.true_and] at bit
  rw [Word.test_fillBelow w nonzero j inside, bit]
  rcases Nat.lt_or_eq_of_le low with more | rfl
  · simp [show ¬ j ≤ w.trailingZeros by omega]
  · rw [first.2, Bool.true_or]

/-- A call gives the first range that is left, or finds that nothing is set any more. -/
theorem next_spec (here : c.At p) :
    (∃ range rest, c.next = (some range, rest) ∧ rest.words = c.words ∧ rest.At range.stop ∧
        c.words.FirstRange p range) ∨
      (∃ rest, c.next = (none, rest) ∧ rest.words = c.words ∧ rest.At 65536) ∧
        ∀ q, p ≤ q → c.words.test q = false := by
  have scan := BitCursor.FrontAt.ahead here
  rw [next]
  split
  · rename_i outcome
    rw [outcome] at scan
    exact Or.inr ⟨⟨_, rfl, rfl, at_end c.words⟩, scan⟩
  · rename_i i w outcome
    rw [outcome] at scan
    obtain ⟨nonzero, first, after, there, passed⟩ := scan
    obtain ⟨low, setStart, clear, -⟩ := there.drop nonzero
    obtain ⟨lowest, -, -⟩ := Word.trailingZeros_spec w nonzero
    have filled := set_of_filled there nonzero
    have clear (q : Nat) (lowQ : p ≤ q) (less : q < 64 * i + w.trailingZeros) :
        c.words.test q = false := by
      rcases Nat.lt_or_ge q first with early | late
      · exact passed q lowQ early
      · exact clear q late less
    have inside := c.words.lt_of_test _ setStart
    dsimp only
    split
    · rename_i full
      have rest (q : Nat) (lowQ : 64 * i + w.trailingZeros ≤ q) (high : q < 64 * (i + 1)) :
          c.words.test q = true := by
        have bit := filled (q - 64 * i) (by omega) (by omega)
        rwa [full, Word.test_not _ _ (by omega), Word.test_zero, Bool.not_false,
          show 64 * i + (q - 64 * i) = q by omega] at bit
      have skipped := pastFull_spec c.words i
      split
      · rename_i none
        rw [none] at skipped
        refine Or.inl ⟨_, _, rfl, rfl, at_end c.words, ?_⟩
        refine ⟨by simp only; omega, clear, inside, Nat.le_refl _, fun q member => ?_,
          c.words.test_of_le _ (Nat.le_refl _)⟩
        rcases Nat.lt_or_ge q (64 * (i + 1)) with early | late
        · exact rest q member.1 early
        · exact skipped q late member.2
      · rename_i j x found
        rw [found] at skipped
        obtain ⟨rfl, ends, skipped⟩ := skipped
        obtain ⟨less, past⟩ := lt_pastFull c.words i _ found
        obtain ⟨short, stop, ones⟩ := Word.trailingOnes_spec _ ends
        simp only at less past
        generalize (~~~(c.words.word j)).trailingZeros = bits at *
        rw [Nat.min_eq_left (by omega)]
        refine Or.inl ⟨_, _, rfl, rfl, frontAt_clearLowest (BitCursor.frontAt_word c.words j)
          (Nat.le_add_right _ _) (Nat.le_of_lt short), ?_⟩
        refine ⟨by simp only; omega, clear, by simp only; omega, by simp only; omega,
          fun q member => ?_, by rw [c.words.test_block j bits short, stop]⟩
        have below : q < 64 * j + bits := member.2
        rcases Nat.lt_or_ge q (64 * (i + 1)) with early | late
        · exact rest q member.1 early
        · rcases Nat.lt_or_ge q (64 * j) with between | last
          · exact skipped q late between
          · have bit := ones (q - 64 * j) (by omega)
            rwa [← c.words.test_block j _ (by omega), show 64 * j + (q - 64 * j) = q by omega]
              at bit
    · rename_i ends
      obtain ⟨short, stop, ones⟩ := Word.trailingOnes_spec _ ends
      have more : w.trailingZeros < (~~~(w ||| (w - 1))).trailingZeros := by
        rw [Word.test_fillBelow w nonzero _ short, Bool.or_eq_false_iff,
          decide_eq_false_iff_not] at stop
        exact Nat.lt_of_not_le stop.2
      generalize (~~~(w ||| (w - 1))).trailingZeros = bits at *
      rw [Nat.min_eq_left (by omega)]
      refine Or.inl ⟨_, _, rfl, rfl, frontAt_clearLowest there (by dsimp only; omega)
        (Nat.le_of_lt short), ?_⟩
      refine ⟨by simp only; omega, clear, by simp only; omega, by simp only; omega,
        fun q member => ?_, by rw [filled bits short (by omega), stop]⟩
      obtain ⟨above, below⟩ : 64 * i + w.trailingZeros ≤ q ∧ q < 64 * i + bits := member
      have bit := filled (q - 64 * i) (by omega) (by omega)
      rwa [ones _ (by omega), show 64 * i + (q - 64 * i) = q by omega] at bit

/-! Calls one after the other. -/

def after : Nat → RangeCursor → RangeCursor
  | 0, c => c
  | n + 1, c => after n c.next.2

/-- What a scan from a position on still has to give: each time the first range that is left. -/
inductive Remaining (words : Words) : Nat → List Span → Prop
  | nothing {p : Nat} (clear : ∀ q, p ≤ q → words.test q = false) : Remaining words p []
  | range {p : Nat} {range : Span} {ranges : List Span} (first : words.FirstRange p range)
      (later : Remaining words range.stop ranges) : Remaining words p (range :: ranges)

/-- The calls give the elements of a list, then nothing for ever. -/
def Gives (c : RangeCursor) (ranges : List Span) : Prop :=
  ∀ n, (c.after n).next.1 = ranges[n]?

theorem gives_nil {words : Words} (here : c.At p) (same : c.words = words)
    (clear : ∀ q, p ≤ q → words.test q = false) : c.Gives [] := by
  subst same
  intro n
  induction n generalizing c p with
  | zero =>
    rcases next_spec here with ⟨range, rest, -, -, -, first⟩ | ⟨⟨rest, step, -⟩, -⟩
    · have set := first.set range.start ⟨Nat.le_refl _, first.nonempty⟩
      rw [clear _ first.low] at set
      contradiction
    · rw [after, step]
      rfl
  | succ n ih =>
    rcases next_spec here with ⟨range, rest, -, -, -, first⟩ | ⟨⟨rest, step, same, there⟩, -⟩
    · have set := first.set range.start ⟨Nat.le_refl _, first.nonempty⟩
      rw [clear _ first.low] at set
      contradiction
    · rw [after, step]
      exact ih there fun q low => by rw [same]; exact c.words.test_of_le q low

/-- Draining the scan collects what it gives. -/
theorem drainOnto_spec (out : Array Span) (here : c.At p) :
    ∃ ranges, (c.drainOnto out).toList = out.toList ++ ranges ∧ Remaining c.words p ranges ∧
      c.Gives ranges := by
  induction c, out using drainOnto.induct generalizing p with
  | case1 c out rest none =>
    rcases next_spec here with ⟨range, _, step, -⟩ | ⟨⟨_, -, -, -⟩, clear⟩
    · rw [none] at step
      simp at step
    · refine ⟨[], ?_, .nothing clear, gives_nil here rfl clear⟩
      rw [drainOnto]
      split
      · simp
      · rename_i step
        rw [none] at step
        simp at step
  | case2 c out range rest step _ ih =>
    rcases next_spec here with ⟨_, _, step', same, there, first⟩ | ⟨⟨_, step', -⟩, -⟩
    · rw [step, Prod.mk.injEq, Option.some.injEq] at step'
      obtain ⟨rfl, rfl⟩ := step'
      obtain ⟨ranges, added, later, gives⟩ := ih there
      rw [same] at later
      refine ⟨range :: ranges, ?_, .range first later, ?_⟩
      · rw [drainOnto]
        split
        · rename_i none
          rw [step] at none
          simp at none
        · rename_i step'
          rw [step, Prod.mk.injEq, Option.some.injEq] at step'
          obtain ⟨rfl, rfl⟩ := step'
          rw [added, Array.toList_push, List.append_assoc, List.singleton_append]
      · intro n
        cases n with
        | zero =>
          rw [after, step]
          rfl
        | succ n =>
          rw [after, step]
          exact gives n
    · rw [step] at step'
      simp at step'

variable {words : Words} {ranges : List Span}

theorem Remaining.inside (remaining : Remaining words p ranges) :
    ∀ s ∈ ranges, s.start < s.stop ∧ s.stop ≤ 65536 := by
  induction remaining with
  | nothing clear => simp
  | range first later ih =>
    intro s member
    rcases List.mem_cons.mp member with rfl | member
    · exact ⟨first.nonempty, first.inside⟩
    · exact ih s member

theorem Remaining.le_start (remaining : Remaining words p ranges) : ∀ s ∈ ranges, p ≤ s.start := by
  induction remaining with
  | nothing clear => simp
  | range first later ih =>
    intro s member
    have forwards := first.nonempty
    have low := first.low
    rcases List.mem_cons.mp member with rfl | member
    · exact low
    · have := ih s member
      omega

/-- What is left behind a clear position starts behind it. -/
theorem Remaining.lt_start (remaining : Remaining words p ranges) (border : words.test p = false) :
    ∀ s ∈ ranges, p < s.start := by
  intro s member
  refine Nat.lt_of_le_of_ne (remaining.le_start s member) ?_
  rintro rfl
  cases remaining with
  | nothing clear => contradiction
  | range first later =>
    have forwards := first.nonempty
    rcases List.mem_cons.mp member with rfl | member
    · rw [first.set s.start ⟨Nat.le_refl _, forwards⟩] at border
      contradiction
    · have low := first.low
      have := later.le_start s member
      omega

theorem Remaining.ascending (remaining : Remaining words p ranges) :
    ranges.Pairwise (fun a b => a.stop < b.start) := by
  induction remaining with
  | nothing clear => exact List.Pairwise.nil
  | range first later ih => exact List.pairwise_cons.mpr ⟨later.lt_start first.behind, ih⟩

theorem Remaining.covers (remaining : Remaining words p ranges) (n : Nat) :
    (∃ s ∈ ranges, n ∈ s) ↔ p ≤ n ∧ words.test n = true := by
  induction remaining with
  | nothing clear =>
    simp only [List.not_mem_nil, false_and, exists_false, false_iff, not_and, Bool.not_eq_true]
    exact clear n
  | @range p range ranges first later ih =>
    have low := first.low
    have forwards := first.nonempty
    simp only [List.mem_cons, or_and_right, exists_or, exists_eq_left, ih]
    constructor
    · rintro (here | ⟨above, set⟩)
      · exact ⟨Nat.le_trans low here.1, first.set n here⟩
      · exact ⟨by omega, set⟩
    · rintro ⟨above, set⟩
      rcases Nat.lt_or_ge n range.start with early | late
      · rw [first.clear n above early] at set
        contradiction
      · rcases Nat.lt_or_ge n range.stop with here | behind
        · exact Or.inl ⟨late, here⟩
        · exact Or.inr ⟨behind, set⟩

/-- A maximal range that starts in the first range that is left is that range. -/
theorem eq_of_start_mem {range s : Span} (first : words.FirstRange p range)
    (maximal : words.MaximalRange s) (low : p ≤ s.start) (here : s.start ∈ range) : s = range := by
  have start : s.start = range.start := by
    by_contra other
    have set := first.set (s.start - 1) ⟨by have := here.1; omega, by have := here.2; omega⟩
    rw [maximal.before (s.start - 1) (by have := here.1; omega)] at set
    contradiction
  have stop : s.stop = range.stop := by
    rcases Nat.lt_trichotomy s.stop range.stop with short | same | long
    · have forwards := maximal.nonempty
      have set := first.set s.stop ⟨by omega, short⟩
      rw [maximal.behind] at set
      contradiction
    · exact same
    · have forwards := first.nonempty
      have set := maximal.set range.stop ⟨by omega, long⟩
      rw [first.behind] at set
      contradiction
  cases s
  cases range
  exact (Span.mk.injEq ..).mpr ⟨start, stop⟩

/-- From the start, or from a clear position on, the ranges that are left are the maximal ranges. -/
theorem Remaining.mem_iff (remaining : Remaining words p ranges)
    (border : p = 0 ∨ words.test p = false) (s : Span) :
    s ∈ ranges ↔ p ≤ s.start ∧ words.MaximalRange s := by
  induction remaining with
  | nothing clear =>
    simp only [List.not_mem_nil, false_iff, not_and]
    intro low maximal
    have set := maximal.set s.start ⟨Nat.le_refl _, maximal.nonempty⟩
    rw [clear _ low] at set
    contradiction
  | @range p range ranges first later ih =>
    have low := first.low
    have forwards := first.nonempty
    rw [List.mem_cons, ih (Or.inr first.behind)]
    constructor
    · rintro (rfl | ⟨above, maximal⟩)
      · refine ⟨low, first.nonempty, first.inside, first.set, fun q next => ?_, first.behind⟩
        rcases Nat.lt_or_ge q p with early | late
        · -- the range starts right at the border, which is clear unless it is 0
          have same : s.start = p := by omega
          rcases border with rfl | clear
          · omega
          · rw [← same, first.set s.start ⟨Nat.le_refl _, forwards⟩] at clear
            contradiction
        · exact first.clear q late (by omega)
      · exact ⟨by omega, maximal⟩
    · rintro ⟨above, maximal⟩
      have set := maximal.set s.start ⟨Nat.le_refl _, maximal.nonempty⟩
      rcases Nat.lt_or_ge s.start range.start with early | late
      · rw [first.clear s.start above early] at set
        contradiction
      · rcases Nat.lt_or_ge s.start range.stop with here | behind
        · exact Or.inl (eq_of_start_mem first maximal above ⟨late, here⟩)
        · exact Or.inr ⟨behind, maximal⟩

end RangeCursor

namespace Words

theorem ranges_spec (ws : Words) :
    RangeCursor.Remaining ws 0 ws.ranges.toList ∧
      (RangeCursor.ofWords ws).Gives ws.ranges.toList := by
  obtain ⟨ranges, added, remaining, gives⟩ :=
    RangeCursor.drainOnto_spec #[] (RangeCursor.at_ofWords ws)
  have whole : ws.ranges.toList = ranges := by simpa [Words.ranges] using added
  rw [whole]
  exact ⟨remaining, gives⟩

/-- As runs, the ranges are the canonical list that covers the set positions. -/
theorem canonical_ranges (ws : Words) :
    Run.Canonical (ws.ranges.toList.map Run.ofSpan) ∧
      ∀ n, Run.Covers (ws.ranges.toList.map Run.ofSpan) n ↔ ws.test n = true := by
  have remaining := ws.ranges_spec.1
  have inside := remaining.inside
  generalize ws.ranges.toList = ranges at *
  have start (s : Span) (member : s ∈ ranges) : (Run.ofSpan s).start.toNat = s.start :=
    Run.start_ofSpan s (Nat.lt_of_lt_of_le (inside s member).1 (inside s member).2)
  have stop (s : Span) (member : s ∈ ranges) : (Run.ofSpan s).stop = s.stop :=
    Run.stop_ofSpan s (inside s member).1 (inside s member).2
  refine ⟨⟨?_, ?_⟩, fun n => ?_⟩
  · rw [List.pairwise_map]
    refine remaining.ascending.imp_of_mem fun {a b} inA inB apart => ?_
    rwa [stop a inA, start b inB]
  · intro r member
    obtain ⟨s, held, rfl⟩ := List.mem_map.mp member
    rw [stop s held]
    exact (inside s held).2
  · refine Iff.trans ?_ ((remaining.covers n).trans (and_iff_right (Nat.zero_le n)))
    constructor
    · rintro ⟨r, member, low, high⟩
      obtain ⟨s, held, rfl⟩ := List.mem_map.mp member
      rw [start s held] at low
      rw [stop s held] at high
      exact ⟨s, held, low, high⟩
    · rintro ⟨s, held, low, high⟩
      exact ⟨_, List.mem_map_of_mem held, by rwa [start s held], by rwa [stop s held]⟩

/-- The ranges start at the set positions without a set position before them. -/
theorem mem_starts_iff (ws : Words) (n : Nat) :
    n ∈ ws.ranges.toList.map Span.start ↔
      n < 65536 ∧ (ws.test n && !(decide (0 < n) && ws.test (n - 1))) = true := by
  have remaining := ws.ranges_spec.1
  rw [List.mem_map]
  simp only [Bool.and_eq_true, Bool.not_eq_true', Bool.and_eq_false_iff, decide_eq_false_iff_not]
  constructor
  · rintro ⟨s, held, rfl⟩
    have maximal := ((remaining.mem_iff (Or.inl rfl) s).mp held).2
    have forwards := maximal.nonempty
    have inside := maximal.inside
    refine ⟨by omega, maximal.set s.start ⟨Nat.le_refl _, forwards⟩, ?_⟩
    rcases Nat.eq_zero_or_pos s.start with zero | positive
    · exact Or.inl (by omega)
    · exact Or.inr (maximal.before (s.start - 1) (by omega))
  · rintro ⟨-, set, alone⟩
    obtain ⟨s, held, low, high⟩ := (remaining.covers n).mpr ⟨Nat.zero_le n, set⟩
    refine ⟨s, held, Nat.le_antisymm low (Nat.le_of_not_lt fun inner => ?_)⟩
    have maximal := ((remaining.mem_iff (Or.inl rfl) s).mp held).2
    rcases alone with zero | clear
    · omega
    · rw [maximal.set (n - 1) ⟨by omega, by omega⟩] at clear
      contradiction

theorem countRuns_eq_size (ws : Words) : ws.countRuns = ws.ranges.size := by
  have remaining := ws.ranges_spec.1
  have starts : ws.ranges.toList.map Span.start = (List.range 65536).filter ws.startWords.test := by
    apply List.Pairwise.eq_of_mem_iff (r := (· < ·))
    · rw [List.pairwise_map]
      refine remaining.ascending.imp_of_mem fun {a b} inA _ apart => ?_
      have := (remaining.inside a inA).1
      omega
    · exact List.pairwise_lt_range.filter _
    · intro n
      rw [mem_starts_iff, List.mem_filter, List.mem_range]
      refine and_congr_right fun inside => ?_
      rw [test_startWords ws n inside]
  rw [countRuns_eq, count_eq_countP, List.countP_eq_length_filter, ← starts, List.length_map,
    Array.length_toList]

/-- The calls of the scan give the maximal ranges of set positions in ascending order, and nothing
more from the last one on. Counting the run starts gives their number, and counting only until a limit is
passed tells whether they are more. -/
theorem ranges_exact (ws : Words) :
    (∀ n, ((RangeCursor.ofWords ws).after n).next.1 = ws.ranges[n]?) ∧
      (∀ s, s ∈ ws.ranges ↔ ws.MaximalRange s) ∧
      ws.ranges.toList.Pairwise (fun a b => a.stop < b.start) ∧
      ws.countRuns = ws.ranges.size ∧
      ∀ limit, ws.countRunsExceeds limit = true ↔ limit < ws.countRuns := by
  obtain ⟨remaining, gives⟩ := ws.ranges_spec
  refine ⟨fun n => ?_, fun s => ?_, remaining.ascending, ws.countRuns_eq_size,
    ws.countRunsExceeds_iff⟩
  · rw [gives n, Array.getElem?_toList]
  · rw [← Array.mem_toList_iff, remaining.mem_iff (Or.inl rfl), and_iff_right (Nat.zero_le _)]

end Words

end Roaring
