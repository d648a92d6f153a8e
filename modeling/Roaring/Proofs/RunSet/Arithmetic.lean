import Roaring.Proofs.Run.Arithmetic
import Roaring.Proofs.RunSet.Algebra

/-! Updates and queries of sets of runs in an arithmetic. Ends and counts have room for 65536 and are
compared as they are; every sum, difference and narrowing of 16 bits is the arithmetic's. -/
namespace Roaring

def RunSet.wide (s : RunSet) : Array WideRun := s.runs.map Run.wide

theorem RunSet.WellFormed.inside {s : RunSet} (formed : s.WellFormed) {i : Nat} {r : Run}
    (here : s.runs[i]? = some r) : r.stop ≤ 65536 :=
  formed.2 r (Array.mem_toList_iff.mpr (Array.mem_of_getElem? here))

def SetOp.inArithmetic (A : Arithmetic) :
    SetOp → List WideRun → List WideRun → Option (Array WideRun)
  | inter => A.inter
  | union => A.union
  | symmDiff => A.symmDiff
  | diff => A.diff

namespace Arithmetic

section
variable (A : Arithmetic)

def insert (runs : Array WideRun) (v : Int) : Option (Array WideRun × Bool) :=
  let i := Search.partitionPoint runs (fun r => r.stop ≤ v)
  let next := runs[i]?
  if next.any (fun r => r.start ≤ v) then some (runs, false)
  else
    let previous := if i = 0 then none else runs[i - 1]?
    match previous.filter (fun r => r.stop == v), next.filter (fun r => r.start == v + 1) with
    | some p, some n => do
      let length ← A.number ((← A.last n) - p.start)
      return ((runs.setIfInBounds (i - 1) ⟨p.start, length⟩).eraseIdxIfInBounds i, true)
    | some p, none => do
      return (runs.setIfInBounds (i - 1) ⟨p.start, ← A.number (p.length + 1)⟩, true)
    | none, some n => do
      return (runs.setIfInBounds i ⟨← A.number (n.start - 1), ← A.number (n.length + 1)⟩, true)
    | none, none => some (runs.insertIdxIfInBounds i ⟨v, 0⟩, true)

def erase (runs : Array WideRun) (v : Int) : Option (Array WideRun × Bool) :=
  let i := Search.partitionPoint runs (fun r => r.stop ≤ v)
  match runs[i]?.filter (fun r => r.start ≤ v) with
  | none => some (runs, false)
  | some r =>
    if r.length = 0 then some (runs.eraseIdxIfInBounds i, true)
    else if v = r.start then do
      return (runs.setIfInBounds i ⟨← A.number (r.start + 1), ← A.number (r.length - 1)⟩, true)
    else do
      let last ← A.last r
      if v = last then
        return (runs.setIfInBounds i ⟨r.start, ← A.number (r.length - 1)⟩, true)
      else
        let before ← A.number ((← A.number (v - 1)) - r.start)
        let next ← A.number (v + 1)
        let behind ← A.number (last - next)
        return ((runs.setIfInBounds i ⟨r.start, before⟩).insertIdxIfInBounds (i + 1) ⟨next, behind⟩,
          true)

/-- Refuses the values below the last one. -/
def push (runs : Array WideRun) (v : Int) : Option (Array WideRun) :=
  match runs.back? with
  | none => some #[⟨v, 0⟩]
  | some r => do
    let last ← A.last r
    if v < last then none
    else if v = last then return runs
    else if v = r.stop then
      return runs.setIfInBounds (runs.size - 1) ⟨r.start, ← A.number (r.length + 1)⟩
    else return runs.push ⟨v, 0⟩

def insertRange (runs : Array WideRun) (start stop : Int) : Option (Array WideRun) :=
  if stop ≤ start then some runs
  else
    let lo := Search.partitionPoint runs (fun r => r.stop < start)
    let hi := Search.partitionPoint runs (fun r => r.start ≤ stop)
    if hi < lo then none
    else do
      let first := if lo < hi then runs[lo]? else none
      let last := if lo < hi then runs[hi - 1]? else none
      let joined ← A.ofSpan (first.elim start (fun r => min start r.start))
        (last.elim stop (fun r => max stop r.stop))
      return splice runs lo hi #[joined]

def eraseRange (runs : Array WideRun) (start stop : Int) : Option (Array WideRun) :=
  if stop ≤ start then some runs
  else
    let lo := Search.partitionPoint runs (fun r => r.stop ≤ start)
    let hi := Search.partitionPoint runs (fun r => r.start < stop)
    if hi ≤ lo then some runs
    else
      match runs[lo]?, runs[hi - 1]? with
      | some first, some last => do
        let left ← A.pushPiece first.start start #[]
        let both ← A.pushPiece stop last.stop left
        return splice runs lo hi both
      | _, _ => some runs

def rankOnto (v : Int) : List WideRun → Int → Option Int
  | [], n => some n
  | r :: rest, n =>
    if v < r.start then some n
    else do
      if (← A.last r) ≤ v then rankOnto v rest (n + (r.length + 1))
      else return n + (← A.number (v - r.start)) + 1

def selectFrom : List WideRun → Int → Option (Option Int)
  | [], _ => some none
  | r :: rest, n =>
    if n < r.length + 1 then do return some (← A.number (r.start + (← A.number n)))
    else selectFrom rest (n - (r.length + 1))

end

theorem find_wide (s : RunSet) (v : UInt16) :
    Search.partitionPoint (s.runs.map Run.wide) (fun r => r.stop ≤ (v.toNat : Int)) = s.find v := by
  rw [Search.partitionPoint_map]
  simp only [Run.stop_wide, Int.ofNat_le, RunSet.find]

/-! The runs that an update looks at. -/

theorem started_wide (runs : Array Run) (i : Nat) (v : UInt16) :
    (runs.map Run.wide)[i]?.any (fun r => r.start ≤ (v.toNat : Int)) =
      runs[i]?.any (fun r => r.start ≤ v) := by
  simp only [Array.getElem?_map, Option.any_map, Run.start_wide, Int.ofNat_le,
    ← UInt16.le_iff_toNat_le]

theorem previous_wide (runs : Array Run) (i : Nat) (v : UInt16) :
    (if i = 0 then none else (runs.map Run.wide)[i - 1]?).filter
        (fun r => r.stop == (v.toNat : Int)) =
      ((if i = 0 then none else runs[i - 1]?).filter fun r => r.stop == v.toNat).map Run.wide := by
  have ends : (fun r : WideRun => r.stop == v.toNat) ∘ Run.wide = fun r => r.stop == v.toNat := by
    funext r
    rw [Bool.eq_iff_iff, Function.comp_apply, beq_iff_eq, beq_iff_eq, Run.stop_wide, Int.ofNat_inj]
  split
  · rfl
  · rw [Array.getElem?_map, Option.filter_map, ends]

theorem next_wide (runs : Array Run) (i : Nat) (v : UInt16) :
    (runs.map Run.wide)[i]?.filter (fun r => r.start == (v.toNat : Int) + 1) =
      (runs[i]?.filter fun r => r.start.toNat == v.toNat + 1).map Run.wide := by
  have starts : (fun r : WideRun => r.start == v.toNat + 1) ∘ Run.wide =
      fun r => r.start.toNat == v.toNat + 1 := by
    funext r
    rw [Bool.eq_iff_iff, Function.comp_apply, beq_iff_eq, beq_iff_eq, Run.start_wide]
    omega
  rw [Array.getElem?_map, Option.filter_map, starts]

theorem covering_wide (runs : Array Run) (i : Nat) (v : UInt16) :
    (runs.map Run.wide)[i]?.filter (fun r => r.start ≤ (v.toNat : Int)) =
      (runs[i]?.filter fun r => r.start ≤ v).map Run.wide := by
  have starts : (fun r : WideRun => decide (r.start ≤ v.toNat)) ∘ Run.wide =
      fun r => decide (r.start ≤ v) := by
    funext r
    simp [UInt16.le_iff_toNat_le]
  rw [Array.getElem?_map, Option.filter_map, starts]

theorem push_piece (start stop : Nat) (out : Array Run) :
    (if start < stop then out.push (Run.ofSpan ⟨start, stop⟩) else out) =
      out ++ if start < stop then #[Run.ofSpan ⟨start, stop⟩] else #[] := by
  split
  · rfl
  · rw [Array.append_empty]

variable {A : Arithmetic} (faithful : A.Faithful) {s : RunSet}
include faithful

theorem Faithful.insert_wide (formed : s.WellFormed) (v : UInt16) :
    A.insert s.wide v.toNat = some ((s.insert v).1.wide, (s.insert v).2) := by
  simp only [insert, RunSet.insert, RunSet.wide, find_wide, started_wide, previous_wide, next_wide]
  by_cases present : s.runs[s.find v]?.any (fun r => r.start ≤ v) = true
  · rw [if_pos present, if_pos present]
  · rw [if_neg present, if_neg present]
    cases lower : (if s.find v = 0 then none else s.runs[s.find v - 1]?).filter
        fun r => r.stop == v.toNat with
    | none =>
      cases upper : s.runs[s.find v]?.filter fun r => r.start.toNat == v.toNat + 1 with
      | none =>
        simp only [Option.map_none, map_insertIdx]
        rfl
      | some n =>
        obtain ⟨here, touches⟩ := Option.filter_eq_some_iff.mp upper
        have inside := formed.inside here
        rw [beq_iff_eq] at touches
        rw [Run.stop] at inside
        -- a run behind a value has room below it, and so its length has room above
        simp only [Option.map_none, Option.map_some, Run.start_wide, Run.length_wide,
          faithful.number_pred n.start (by omega), faithful.number_succ n.length (by omega),
          Array.map_setIfInBounds]
        rfl
    | some p =>
      have below := v.toNat_lt
      have touches : p.stop = v.toNat := beq_iff_eq.mp (Option.filter_eq_some_iff.mp lower).2
      cases upper : s.runs[s.find v]?.filter fun r => r.start.toNat == v.toNat + 1 with
      | none =>
        rw [Run.stop] at touches
        -- a run that ends at a value is no longer than the value
        simp only [Option.map_none, Option.map_some, Run.start_wide, Run.length_wide,
          faithful.number_succ p.length (by omega), Array.map_setIfInBounds]
        rfl
      | some n =>
        obtain ⟨here, touchesNext⟩ := Option.filter_eq_some_iff.mp upper
        have inside := formed.inside here
        have ordered : p.start ≤ n.last := by
          have first := p.start_lt_stop
          have last := n.start_lt_stop
          rw [beq_iff_eq] at touchesNext
          rw [UInt16.le_iff_toNat_le, n.toNat_last inside]
          omega
        simp only [Option.map_some, Run.start_wide, faithful.last_wide n inside,
          Option.bind_eq_bind, Option.bind_some, faithful.number_sub n.last p.start ordered,
          map_eraseIdx, Array.map_setIfInBounds]
        rfl

/-- The two parts of a run that loses a value between its ends. -/
theorem Faithful.split_wide (r : Run) (v : UInt16) (after : r.start.toNat < v.toNat)
    (before : v.toNat < r.last.toNat) :
    A.number ((v.toNat : Int) - 1) = some ((v - 1).toNat : Int) ∧
      A.number (((v - 1).toNat : Int) - r.start.toNat) = some ((v - 1 - r.start).toNat : Int) ∧
      A.number ((v.toNat : Int) + 1) = some ((v + 1).toNat : Int) ∧
      A.number ((r.last.toNat : Int) - (v + 1).toNat) = some ((r.last - (v + 1)).toNat : Int) := by
  have high := r.last.toNat_lt
  have pred := Run.toNat_pred v (by omega)
  have succ := Run.toNat_succ v (by omega)
  refine ⟨faithful.number_pred v (by omega), faithful.number_sub _ _ ?_,
    faithful.number_succ v (by omega), faithful.number_sub _ _ ?_⟩
  · rw [UInt16.le_iff_toNat_le]
    omega
  · rw [UInt16.le_iff_toNat_le]
    omega

theorem Faithful.erase_wide (formed : s.WellFormed) (v : UInt16) :
    A.erase s.wide v.toNat = some ((s.erase v).1.wide, (s.erase v).2) := by
  obtain ⟨front, back, parts, index, -, behind⟩ := s.find_spec v formed
  simp only [erase, RunSet.erase, RunSet.wide, find_wide, covering_wide]
  cases found : s.runs[s.find v]?.filter fun r => decide (r.start ≤ v) with
  | none => rfl
  | some r =>
    obtain ⟨here, started⟩ := Option.filter_eq_some_iff.mp found
    have inside := formed.inside here
    -- bisection went past the runs that end before the value
    have within : v.toNat < r.stop := by
      rw [RunSet.head?_of_parts parts index] at here
      exact behind r (List.mem_of_mem_head? here)
    have last := r.toNat_last inside
    have emptyIff : (r.length.toNat : Int) = 0 ↔ r.length = 0 := by
      rw [← UInt16.toNat_inj, UInt16.toNat_zero]
      omega
    rw [decide_eq_true_eq, UInt16.le_iff_toNat_le] at started
    rw [Run.stop] at inside within last
    simp only [Option.map_some, Run.start_wide, Run.length_wide, emptyIff, Int.ofNat_inj,
      UInt16.toNat_inj]
    by_cases only : r.length = 0
    · rw [if_pos only, if_pos only, map_eraseIdx]
    · rw [if_neg only, if_neg only]
      have longer : 0 < r.length.toNat := by
        rw [← UInt16.toNat_inj, UInt16.toNat_zero] at only
        omega
      by_cases first : v = r.start
      · rw [if_pos first, if_pos first, faithful.number_succ r.start (by omega),
          faithful.number_pred r.length longer, Array.map_setIfInBounds]
        rfl
      · rw [if_neg first, if_neg first, faithful.last_wide r inside, Option.bind_eq_bind,
          Option.bind_some]
        simp only [Int.ofNat_inj, UInt16.toNat_inj]
        by_cases final : v = r.last
        · rw [if_pos final, if_pos final, faithful.number_pred r.length longer,
            Array.map_setIfInBounds]
          rfl
        · rw [if_neg final, if_neg final]
          rw [← UInt16.toNat_inj] at first final
          obtain ⟨before, length, next, rest⟩ := faithful.split_wide r v (by omega) (by omega)
          simp only [before, length, next, rest, Option.bind_some, map_insertIdx,
            Array.map_setIfInBounds]
          rfl

theorem Faithful.push_wide (formed : s.WellFormed) (v : UInt16) (last : ∀ u ∈ s, u ≤ v) :
    ∃ t, s.push v = .ok t ∧ A.push s.wide v.toNat = some t.wide := by
  simp only [push, RunSet.push, RunSet.wide, Array.back?_map]
  cases top : s.runs.back? with
  | none =>
    refine ⟨_, rfl, ?_⟩
    rw [Array.map_singleton]
    rfl
  | some r =>
    obtain ⟨-, member, lastNat, -⟩ := s.last_spec formed r top
    have above := UInt16.le_iff_toNat_le.mp (last r.last member)
    have inside := formed.inside (Array.back?_eq_getElem? ▸ top)
    have below := v.toNat_lt
    simp only [Option.map_some, faithful.last_wide r inside, Option.bind_eq_bind, Option.bind_some,
      Run.start_wide, Run.length_wide, Run.stop_wide, Int.ofNat_lt, Int.ofNat_inj]
    rw [if_neg (UInt16.not_lt.mpr (last r.last member)), if_neg (Nat.not_lt.mpr above)]
    by_cases same : v = r.last
    · rw [if_pos same, if_pos (congrArg UInt16.toNat same)]
      exact ⟨_, rfl, rfl⟩
    · rw [if_neg same, if_neg (mt UInt16.toNat_inj.mp same)]
      by_cases touches : v.toNat = r.stop
      · rw [if_pos touches, if_pos touches]
        rw [Run.stop] at touches
        refine ⟨_, rfl, ?_⟩
        rw [faithful.number_succ r.length (by omega), Array.map_setIfInBounds, Array.size_map]
        rfl
      · rw [if_neg touches, if_neg touches]
        refine ⟨_, rfl, ?_⟩
        rw [Array.map_push]
        rfl

/-- Together with what it meets at its ends, a range of the domain is one. -/
theorem Faithful.joined_wide (range : Span) (first last : Option Run)
    (forwards : range.start < range.stop) (inside : range.stop ≤ 65536)
    (insideLast : ∀ r, last = some r → r.stop ≤ 65536) :
    A.ofSpan
        ((first.map Run.wide).elim (range.start : Int) fun r => min (range.start : Int) r.start)
        ((last.map Run.wide).elim (range.stop : Int) fun r => max (range.stop : Int) r.stop) =
      some (Run.ofSpan ⟨first.elim range.start fun r => min range.start r.start.toNat,
        last.elim range.stop fun r => max range.stop r.stop⟩).wide := by
  have low : (first.map Run.wide).elim (range.start : Int)
        (fun r => min (range.start : Int) r.start) =
        (first.elim range.start (fun r => min range.start r.start.toNat) : Nat) ∧
      first.elim range.start (fun r => min range.start r.start.toNat) ≤ range.start := by
    cases first with
    | none => exact ⟨rfl, Nat.le_refl _⟩
    | some r =>
      simp only [Option.map_some, Option.elim_some, Run.start_wide]
      omega
  have high : (last.map Run.wide).elim (range.stop : Int) (fun r => max (range.stop : Int) r.stop) =
        (last.elim range.stop (fun r => max range.stop r.stop) : Nat) ∧
      range.stop ≤ last.elim range.stop (fun r => max range.stop r.stop) ∧
      last.elim range.stop (fun r => max range.stop r.stop) ≤ 65536 := by
    cases last with
    | none => exact ⟨rfl, Nat.le_refl _, inside⟩
    | some r =>
      have := insideLast r rfl
      simp only [Option.map_some, Option.elim_some, Run.stop_wide]
      omega
  rw [low.1, high.1]
  exact faithful.ofSpan_wide ⟨_, _⟩
    (Nat.lt_of_le_of_lt low.2 (Nat.lt_of_lt_of_le forwards high.2.1)) high.2.2

theorem Faithful.insertRange_wide (formed : s.WellFormed) (range : Span)
    (inside : range.stop ≤ 65536) :
    ∃ t, s.insertRange range = .ok t ∧
      A.insertRange s.wide range.start range.stop = some t.wide := by
  obtain ⟨t, done, -⟩ := s.insertRange_spec range formed inside
  refine ⟨t, done, ?_⟩
  simp only [insertRange, RunSet.wide, Search.partitionPoint_map, Run.start_wide, Run.stop_wide,
    Int.ofNat_lt, Int.ofNat_le, Array.getElem?_map]
  rw [RunSet.insertRange] at done
  by_cases forwards : range.start < range.stop
  · rw [if_neg (by simpa [Span.isEmpty] using forwards)] at done
    rw [if_neg (Nat.not_le.mpr forwards)]
    simp only at done
    generalize Search.partitionPoint s.runs (fun r => decide (r.stop < range.start)) = lo at *
    generalize Search.partitionPoint s.runs (fun r => decide (r.start.toNat ≤ range.stop)) = hi at *
    by_cases crossed : hi < lo
    · rw [if_pos crossed] at done
      contradiction
    · rw [if_neg crossed, Except.ok.injEq] at done
      have firstWide : (if lo < hi then s.runs[lo]?.map Run.wide else none) =
          (if lo < hi then s.runs[lo]? else none).map Run.wide := by
        split <;> rfl
      have lastWide : (if lo < hi then s.runs[hi - 1]?.map Run.wide else none) =
          (if lo < hi then s.runs[hi - 1]? else none).map Run.wide := by
        split <;> rfl
      have insideLast (r : Run) (here : (if lo < hi then s.runs[hi - 1]? else none) = some r) :
          r.stop ≤ 65536 := by
        split at here
        · exact formed.inside here
        · contradiction
      rw [if_neg crossed, firstWide, lastWide,
        faithful.joined_wide range _ _ forwards inside insideLast, ← done, Option.bind_eq_bind,
        Option.bind_some, map_splice, Array.map_singleton]
      rfl
  · rw [if_pos (by simpa [Span.isEmpty] using forwards), Except.ok.injEq] at done
    rw [if_pos (Nat.not_lt.mp forwards), done]

theorem Faithful.eraseRange_wide (formed : s.WellFormed) (range : Span)
    (inside : range.stop ≤ 65536) :
    A.eraseRange s.wide range.start range.stop = some (s.eraseRange range).wide := by
  simp only [eraseRange, RunSet.eraseRange, RunSet.wide, Search.partitionPoint_map, Run.start_wide,
    Run.stop_wide, Int.ofNat_lt, Int.ofNat_le, Array.getElem?_map, Span.isEmpty, decide_eq_true_eq]
  by_cases nothing : range.stop ≤ range.start
  · rw [if_pos nothing, if_pos nothing]
  · rw [if_neg nothing, if_neg nothing]
    generalize Search.partitionPoint s.runs (fun r => decide (r.stop ≤ range.start)) = lo
    generalize Search.partitionPoint s.runs (fun r => decide (r.start.toNat < range.stop)) = hi
    by_cases none : hi ≤ lo
    · rw [if_pos none, if_pos none]
    · rw [if_neg none, if_neg none]
      cases s.runs[lo]? with
      | none => rfl
      | some first =>
        cases here : s.runs[hi - 1]? with
        | none => rfl
        | some last =>
          have bounded := formed.inside here
          have left := faithful.pushPiece_wide first.start.toNat range.start (by omega) #[]
          have right := faithful.pushPiece_wide range.stop last.stop bounded
            (if first.start.toNat < range.start then
              #[].push (Run.ofSpan ⟨first.start.toNat, range.start⟩) else #[])
          rw [Array.map_empty] at left
          simp only [Option.map_some, Run.start_wide, Run.stop_wide, left, right,
            Option.bind_eq_bind, Option.bind_some]
          rw [push_piece, ← map_splice]
          rfl

theorem Faithful.rankOnto_wide (v : UInt16) (runs : List Run) (n : Nat)
    (inside : ∀ r ∈ runs, r.stop ≤ 65536) :
    A.rankOnto v.toNat (runs.map Run.wide) n = some (RunSet.rankOnto v runs n : Int) := by
  induction runs generalizing n with
  | nil => rfl
  | cons r rest ih =>
    have here := inside r List.mem_cons_self
    simp only [List.map_cons, rankOnto, RunSet.rankOnto, Run.start_wide, Run.length_wide,
      Int.ofNat_lt, ← UInt16.lt_iff_toNat_lt, faithful.last_wide r here, Option.bind_eq_bind,
      Option.bind_some, Int.ofNat_le, ← UInt16.le_iff_toNat_le]
    by_cases ahead : v < r.start
    · rw [if_pos ahead, if_pos ahead]
    · rw [if_neg ahead, if_neg ahead]
      by_cases passed : r.last ≤ v
      · rw [if_pos passed, if_pos passed]
        exact ih (n + r.count) fun q member => inside q (List.mem_cons_of_mem _ member)
      · rw [if_neg passed, if_neg passed, faithful.number_sub v r.start (UInt16.not_lt.mp ahead)]
        rfl

theorem Faithful.selectFrom_wide (runs : List Run) (n : Nat)
    (inside : ∀ r ∈ runs, r.stop ≤ 65536) :
    A.selectFrom (runs.map Run.wide) n =
      some ((RunSet.selectFrom runs n).map fun v => (v.toNat : Int)) := by
  induction runs generalizing n with
  | nil => rfl
  | cons r rest ih =>
    have here := inside r List.mem_cons_self
    have count : (r.length.toNat : Int) + 1 = r.count := rfl
    rw [Run.stop_eq] at here
    simp only [List.map_cons, selectFrom, RunSet.selectFrom, Run.start_wide, Run.length_wide, count,
      Int.ofNat_lt]
    by_cases within : n < r.count
    · rw [if_pos within, if_pos within, faithful.number_toUInt16 n (by omega), Option.bind_eq_bind,
        Option.bind_some, faithful.number_add r.start n.toUInt16]
      · rfl
      · rw [toNat_toUInt16 (by omega)]
        omega
    · rw [if_neg within, if_neg within, ← Int.natCast_sub (Nat.not_lt.mp within)]
      exact ih (n - r.count) fun q member => inside q (List.mem_cons_of_mem _ member)

theorem Faithful.onRuns_wide (op : SetOp) (a b : List Run) (canonicalA : Run.Canonical a)
    (canonicalB : Run.Canonical b) :
    op.inArithmetic A (a.map Run.wide) (b.map Run.wide) =
      some ((op.onRuns a b).map Run.wide) := by
  cases op with
  | inter => exact faithful.inter_wide a b canonicalA.2
  | union => exact faithful.union_wide a b canonicalA.2 canonicalB.2
  | symmDiff => exact faithful.symmDiff_wide a b canonicalA canonicalB
  | diff => exact faithful.diff_wide a b canonicalA.2

omit faithful

/-- The arithmetic refuses nothing, and what it computes are the runs and the numbers of 16 bits. -/
structure Agrees (A : Arithmetic) (s t : RunSet) : Prop where
  runs : ∀ r ∈ s.runs, A.last r.wide = some (r.last.toNat : Int) ∧
    ∀ v : UInt16, A.contains r.wide v.toNat = some (r.contains v)
  insert : ∀ v : UInt16, A.insert s.wide v.toNat = some ((s.insert v).1.wide, (s.insert v).2)
  erase : ∀ v : UInt16, A.erase s.wide v.toNat = some ((s.erase v).1.wide, (s.erase v).2)
  push : ∀ v : UInt16, (∀ u ∈ s, u ≤ v) →
    ∃ u, s.push v = .ok u ∧ A.push s.wide v.toNat = some u.wide
  insertRange : ∀ range : Span, range.stop ≤ 65536 →
    ∃ u, s.insertRange range = .ok u ∧ A.insertRange s.wide range.start range.stop = some u.wide
  eraseRange : ∀ range : Span, range.stop ≤ 65536 →
    A.eraseRange s.wide range.start range.stop = some (s.eraseRange range).wide
  rank : ∀ v : UInt16, A.rankOnto v.toNat s.wide.toList 0 = some (s.rank v : Int)
  select : ∀ n : Nat,
    A.selectFrom s.wide.toList n = some ((s.select n).map fun v => (v.toNat : Int))
  merges : ∀ op : SetOp, op.inArithmetic A s.wide.toList t.wide.toList =
    some ((op.onRuns s.runs.toList t.runs.toList).map Run.wide)

theorem Faithful.agrees (faithful : A.Faithful) {s t : RunSet} (formed : s.WellFormed)
    (formedT : t.WellFormed) : A.Agrees s t where
  runs r member := ⟨faithful.last_wide r (formed.2 r (Array.mem_toList_iff.mpr member)),
    faithful.contains_wide r⟩
  insert := faithful.insert_wide formed
  erase := faithful.erase_wide formed
  push := faithful.push_wide formed
  insertRange := faithful.insertRange_wide formed
  eraseRange := faithful.eraseRange_wide formed
  rank v := by
    rw [RunSet.wide, Array.toList_map]
    exact faithful.rankOnto_wide v s.runs.toList 0 formed.2
  select n := by
    rw [RunSet.wide, Array.toList_map]
    exact faithful.selectFrom_wide s.runs.toList n formed.2
  merges op := by
    rw [RunSet.wide, RunSet.wide, Array.toList_map, Array.toList_map]
    exact faithful.onRuns_wide op _ _ formed formedT

/-- On well-formed sets no number leaves its 16 bits, and every range that becomes a run is a range of
the domain that is not empty: refusing all else, computing with unbounded integers and wrapping
around give the same, which is what the sets compute. -/
theorem agrees_of_wellFormed (s t : RunSet) (formed : s.WellFormed) (formedT : t.WellFormed) :
    refusing.Agrees s t ∧ unbounded.Agrees s t ∧ wrapping.Agrees s t :=
  ⟨faithful_refusing.agrees formed formedT, faithful_unbounded.agrees formed formedT,
    faithful_wrapping.agrees formed formedT⟩

/-- A value that joins two runs into the whole domain, and one that splits a run at its end. -/
theorem agrees_at_ends :
    let s : RunSet := ⟨#[⟨0, 9⟩, ⟨11, 65524⟩]⟩
    refusing.Agrees s s ∧ refusing.insert s.wide 10 = some (#[⟨0, 65535⟩], true) ∧
      refusing.erase s.wide 65534 = some (#[⟨0, 9⟩, ⟨11, 65522⟩, ⟨65535, 0⟩], true) := by
  intro s
  obtain ⟨agrees, -, -⟩ := agrees_of_wellFormed s s (by decide) (by decide)
  exact ⟨agrees, (agrees.insert 10).trans (by decide +kernel),
    (agrees.erase 65534).trans (by decide +kernel)⟩

/-- A run that passes the last value of the domain is not one of a well-formed set. -/
example : refusing.selectFrom [Run.wide ⟨65535, 1⟩] 1 = none := by decide

end Arithmetic

end Roaring
