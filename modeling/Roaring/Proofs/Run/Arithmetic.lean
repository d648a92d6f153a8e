import Roaring.Proofs.Run.Algebra
import Roaring.Proofs.Word

/-! The merges of lists of runs over integers, where every sum, difference and narrowing that gives a
start or a length is left to an arithmetic. Whatever the arithmetic does outside of 16 bits, on
canonical lists the results are the same: nothing outside of 16 bits is ever computed. -/
namespace Roaring

/-- A run over integers. -/
structure WideRun where
  start : Int
  length : Int
deriving DecidableEq

namespace WideRun

def stop (r : WideRun) : Int := r.start + r.length + 1

def boundaries (runs : List WideRun) : List Int := runs.flatMap fun r => [r.start, r.stop]

end WideRun

namespace Run

def wide (r : Run) : WideRun := ⟨r.start.toNat, r.length.toNat⟩

@[simp] theorem start_wide (r : Run) : r.wide.start = r.start.toNat := rfl

@[simp] theorem length_wide (r : Run) : r.wide.length = r.length.toNat := rfl

@[simp] theorem stop_wide (r : Run) : r.wide.stop = r.stop := rfl

theorem boundaries_wide (runs : List Run) :
    WideRun.boundaries (runs.map wide) = (boundaries runs).map Nat.cast := by
  rw [WideRun.boundaries, boundaries, List.flatMap_map, List.map_flatMap]
  rfl

end Run

/-- What becomes of a number that is computed for a start or a length, unless it is refused, and which
ranges may become runs. -/
structure Arithmetic where
  number : Int → Option Int
  admits : Int → Int → Bool

namespace Arithmetic

def unbounded : Arithmetic := ⟨some, fun _ _ => true⟩

/-- Numbers outside of 16 bits are refused, and so are ranges that are empty or leave the domain. -/
def refusing : Arithmetic where
  number n := if 0 ≤ n ∧ n ≤ 65535 then some n else none
  admits start stop := 0 ≤ start && start < stop && stop ≤ 65536

/-- Numbers wrap around at 2^16. -/
def wrapping : Arithmetic := ⟨fun n => some (n % 65536), fun _ _ => true⟩

/-- Numbers of 16 bits stay as they are, and ranges inside the domain that are not empty may become
runs. -/
structure Faithful (A : Arithmetic) : Prop where
  number : ∀ n, 0 ≤ n → n ≤ 65535 → A.number n = some n
  admits : ∀ start stop, 0 ≤ start → start < stop → stop ≤ 65536 → A.admits start stop = true

theorem faithful_unbounded : unbounded.Faithful := ⟨fun _ _ _ => rfl, fun _ _ _ _ _ => rfl⟩

theorem faithful_refusing : refusing.Faithful := by
  refine ⟨fun n low high => if_pos ⟨low, high⟩, fun start stop low forwards inside => ?_⟩
  simp [refusing, low, forwards, inside]

theorem faithful_wrapping : wrapping.Faithful :=
  ⟨fun n low high => congrArg some (Int.emod_eq_of_lt low (by omega)), fun _ _ _ _ _ => rfl⟩

/-! Runs. -/

section
variable (A : Arithmetic)

def last (r : WideRun) : Option Int := A.number (r.start + r.length)

def contains (r : WideRun) (v : Int) : Option Bool :=
  if r.start ≤ v then do return (← A.number (v - r.start)) ≤ r.length else some false

def ofSpan (start stop : Int) : Option WideRun :=
  if A.admits start stop then do return ⟨← A.number start, ← A.number (stop - start - 1)⟩ else none

def coalesce (r next : WideRun) : Option (Option WideRun) :=
  if r.start ≤ next.start ∧ next.start ≤ r.stop then do
    return some (← A.ofSpan r.start (max r.stop next.stop))
  else some none

/-- The list with the run of a range behind it, where the range is not empty. -/
def pushPiece (start stop : Int) (out : Array WideRun) : Option (Array WideRun) :=
  if start < stop then do return out.push (← A.ofSpan start stop) else some out

/-! Merges. -/

def coalesceOnto (opened : WideRun) : List WideRun → Array WideRun → Option (Array WideRun)
  | [], out => some (out.push opened)
  | r :: rest, out => do
    match ← A.coalesce opened r with
    | some joined => coalesceOnto joined rest out
    | none => coalesceOnto r rest (out.push opened)

def coalesceAll : List WideRun → Option (Array WideRun)
  | [] => some #[]
  | r :: rest => A.coalesceOnto r rest #[]

def union (a b : List WideRun) : Option (Array WideRun) :=
  A.coalesceAll (a.merge b (fun x y => x.start ≤ y.start))

def interOnto : List WideRun → List WideRun → Array WideRun → Option (Array WideRun)
  | a :: as, b :: bs, out => do
    let out ← A.pushPiece (max a.start b.start) (min a.stop b.stop) out
    if a.stop < b.stop then interOnto as (b :: bs) out else interOnto (a :: as) bs out
  | _, _, out => some out
termination_by as bs => as.length + bs.length

def inter (a b : List WideRun) : Option (Array WideRun) := A.interOnto a b #[]

def cutOnto (start stop : Int) : List WideRun → Array WideRun → Option (Array WideRun)
  | [], out => A.pushPiece start stop out
  | b :: bs, out =>
    if b.start < stop then do
      let out ← A.pushPiece start b.start out
      if stop ≤ b.stop then return out else cutOnto (max start b.stop) stop bs out
    else A.pushPiece start stop out

def diffOnto : List WideRun → List WideRun → Array WideRun → Option (Array WideRun)
  | [], _, out => some out
  | a :: as, bs, out => do
    let bs := bs.dropWhile (fun b => b.stop ≤ a.start)
    diffOnto as bs (← A.cutOnto a.start a.stop bs out)

def diff (a b : List WideRun) : Option (Array WideRun) := A.diffOnto a b #[]

def toggleOnto : Option Int → List Int → Array WideRun → Option (Array WideRun)
  | _, [], out => some out
  | none, [_], out => some out
  | some start, [p], out => do return out.push (← A.ofSpan start p)
  | opened, p :: q :: rest, out =>
    if p = q then toggleOnto opened rest out
    else
      match opened with
      | none => toggleOnto (some p) (q :: rest) out
      | some start => do toggleOnto none (q :: rest) (out.push (← A.ofSpan start p))

def symmDiff (a b : List WideRun) : Option (Array WideRun) :=
  A.toggleOnto none
    ((WideRun.boundaries a).merge (WideRun.boundaries b) (fun x y => x ≤ y)) #[]

end

/-! Each computation gives a number of 16 bits. -/

variable {A : Arithmetic} (faithful : A.Faithful)
include faithful

theorem Faithful.number_toUInt16 (n : Nat) (small : n < 65536) :
    A.number n = some (n.toUInt16.toNat : Int) := by
  rw [toNat_toUInt16 small]
  exact faithful.number n (by omega) (by omega)

theorem Faithful.number_add (x y : UInt16) (small : x.toNat + y.toNat ≤ 65535) :
    A.number ((x.toNat : Int) + y.toNat) = some ((x + y).toNat : Int) := by
  rw [UInt16.toNat_add, Nat.mod_eq_of_lt (by omega)]
  exact faithful.number _ (by omega) (by omega)

theorem Faithful.number_sub (x y : UInt16) (ordered : y ≤ x) :
    A.number ((x.toNat : Int) - y.toNat) = some ((x - y).toNat : Int) := by
  rw [UInt16.toNat_sub_of_le _ _ ordered, Int.natCast_sub (UInt16.le_iff_toNat_le.mp ordered)]
  rw [UInt16.le_iff_toNat_le] at ordered
  have := x.toNat_lt
  exact faithful.number _ (by omega) (by omega)

theorem Faithful.number_succ (x : UInt16) (small : x.toNat < 65535) :
    A.number ((x.toNat : Int) + 1) = some ((x + 1).toNat : Int) :=
  faithful.number_add x 1 (Nat.succ_le_of_lt small)

theorem Faithful.number_pred (x : UInt16) (positive : 0 < x.toNat) :
    A.number ((x.toNat : Int) - 1) = some ((x - 1).toNat : Int) :=
  faithful.number_sub x 1 (UInt16.le_iff_toNat_le.mpr positive)

theorem Faithful.last_wide (r : Run) (inside : r.stop ≤ 65536) :
    A.last r.wide = some (r.last.toNat : Int) :=
  faithful.number_add r.start r.length (by rw [Run.stop] at inside; omega)

theorem Faithful.contains_wide (r : Run) (v : UInt16) :
    A.contains r.wide v.toNat = some (r.contains v) := by
  simp only [contains, Run.contains, Run.start_wide, Run.length_wide, Int.ofNat_le,
    ← UInt16.le_iff_toNat_le]
  by_cases started : r.start ≤ v
  · rw [if_pos started, faithful.number_sub v r.start started]
    simp [started, UInt16.le_iff_toNat_le]
  · simp [started]

theorem Faithful.ofSpan_wide (s : Span) (forwards : s.start < s.stop) (inside : s.stop ≤ 65536) :
    A.ofSpan s.start s.stop = some (Run.ofSpan s).wide := by
  have length : (s.stop : Int) - s.start - 1 = (s.stop - s.start - 1 : Nat) := by omega
  have admitted := faithful.admits s.start s.stop (by omega) (by omega) (by omega)
  rw [ofSpan, if_pos admitted, length, faithful.number_toUInt16 s.start (by omega),
    faithful.number_toUInt16 _ (by omega)]
  rfl

theorem Faithful.pushPiece_wide (start stop : Nat) (inside : stop ≤ 65536) (out : Array Run) :
    A.pushPiece start stop (out.map Run.wide) =
      some ((if start < stop then out.push (Run.ofSpan ⟨start, stop⟩) else out).map Run.wide) := by
  simp only [pushPiece, Int.ofNat_lt]
  split
  · rename_i forwards
    have made := faithful.ofSpan_wide ⟨start, stop⟩ forwards inside
    simp only at made
    rw [made, Array.map_push]
    rfl
  · rfl

theorem Faithful.coalesce_wide (r next : Run) (inside : r.stop ≤ 65536)
    (insideNext : next.stop ≤ 65536) :
    A.coalesce r.wide next.wide = some ((r.coalesce next).map Run.wide) := by
  have nonempty := r.start_lt_stop
  simp only [coalesce, Run.coalesce, Run.start_wide, Run.stop_wide, Int.ofNat_le,
    ← UInt16.le_iff_toNat_le]
  split
  · have top : max (r.stop : Int) next.stop = (max r.stop next.stop : Nat) := by omega
    have joined := faithful.ofSpan_wide ⟨r.start.toNat, max r.stop next.stop⟩
      (by simp only; omega) (by simp only; omega)
    rw [top, joined]
    rfl
  · rfl

/-! The merges. -/

theorem Faithful.coalesceOnto_wide (runs : List Run) (opened : Run) (out : Array Run)
    (inside : ∀ r ∈ opened :: runs, r.stop ≤ 65536) :
    A.coalesceOnto opened.wide (runs.map Run.wide) (out.map Run.wide) =
      some ((Run.coalesceOnto opened runs out).map Run.wide) := by
  induction runs generalizing opened out with
  | nil =>
    rw [Run.coalesceOnto, Array.map_push]
    rfl
  | cons r rest ih =>
    have here := inside opened List.mem_cons_self
    have next := inside r (by simp)
    rw [List.map_cons, coalesceOnto, Run.coalesceOnto, faithful.coalesce_wide _ _ here next]
    cases done : opened.coalesce r with
    | none =>
      have closed := ih r (out.push opened) fun q member => inside q (List.mem_cons_of_mem _ member)
      rw [Array.map_push] at closed
      exact closed
    | some joined =>
      refine ih joined out fun q member => ?_
      rcases List.mem_cons.mp member with rfl | later
      · have stop := (Run.coalesce_eq_some done here next).2.1
        omega
      · exact inside q (by simp [later])

theorem Faithful.union_wide (a b : List Run) (insideA : ∀ r ∈ a, r.stop ≤ 65536)
    (insideB : ∀ r ∈ b, r.stop ≤ 65536) :
    A.union (a.map Run.wide) (b.map Run.wide) = some ((Run.union a b).map Run.wide) := by
  have merged : (a.map Run.wide).merge (b.map Run.wide) (fun x y => x.start ≤ y.start) =
      (a.merge b (fun x y => x.start ≤ y.start)).map Run.wide := by
    refine (List.map_merge fun x _ y _ => ?_).symm
    simp [UInt16.le_iff_toNat_le]
  have inside (r : Run) (member : r ∈ a.merge b (fun x y => x.start ≤ y.start)) :
      r.stop ≤ 65536 := (List.mem_merge.mp member).elim (insideA r) (insideB r)
  rw [union, Run.union, merged]
  generalize a.merge b (fun x y => x.start ≤ y.start) = runs at inside ⊢
  cases runs with
  | nil => rw [Run.coalesceAll, Array.map_empty, List.map_nil, coalesceAll]
  | cons r rest =>
    have joined := faithful.coalesceOnto_wide rest r #[] inside
    rw [Array.map_empty] at joined
    exact joined

theorem Faithful.pushOverlap_wide (a b : Run) (out : Array Run) (insideA : a.stop ≤ 65536) :
    A.pushPiece (max a.wide.start b.wide.start) (min a.wide.stop b.wide.stop) (out.map Run.wide) =
      some ((if Span.isEmpty ⟨max a.start.toNat b.start.toNat, min a.stop b.stop⟩ = true then out
        else out.push (Run.ofSpan ⟨max a.start.toNat b.start.toNat, min a.stop b.stop⟩)).map
          Run.wide) := by
  have low : max a.wide.start b.wide.start = (max a.start.toNat b.start.toNat : Nat) := by
    simp only [Run.start_wide]
    omega
  have high : min a.wide.stop b.wide.stop = (min a.stop b.stop : Nat) := by
    simp only [Run.stop_wide]
    omega
  rw [low, high, faithful.pushPiece_wide _ _ (by omega)]
  simp only [Span.isEmpty, decide_eq_true_eq]
  split
  · rw [if_neg (by omega)]
  · rw [if_pos (by omega)]

theorem Faithful.interOnto_wide (a b : List Run) (out : Array Run)
    (insideA : ∀ r ∈ a, r.stop ≤ 65536) :
    A.interOnto (a.map Run.wide) (b.map Run.wide) (out.map Run.wide) =
      some ((Run.interOnto a b out).map Run.wide) := by
  induction a, b, out using Run.interOnto.induct with
  | case1 a as b bs out overlap pushed ends ih =>
    have rest := ih fun r member => insideA r (List.mem_cons_of_mem _ member)
    rw [List.map_cons, List.map_cons, interOnto, Run.interOnto,
      faithful.pushOverlap_wide a b out (insideA a List.mem_cons_self), Option.bind_eq_bind,
      Option.bind_some]
    simp only [Run.stop_wide, Int.ofNat_lt]
    rw [if_pos ends, if_pos ends]
    exact rest
  | case2 a as b bs out overlap pushed ends ih =>
    rw [List.map_cons, List.map_cons, interOnto, Run.interOnto,
      faithful.pushOverlap_wide a b out (insideA a List.mem_cons_self), Option.bind_eq_bind,
      Option.bind_some]
    simp only [Run.stop_wide, Int.ofNat_lt]
    rw [if_neg ends, if_neg ends]
    exact ih insideA
  | case3 a b out spent =>
    have none (x : WideRun) (xs : List WideRun) (y : WideRun) (ys : List WideRun)
        (first : a.map Run.wide = x :: xs) (second : b.map Run.wide = y :: ys) : False := by
      obtain ⟨r, as, rfl, -⟩ := List.map_eq_cons_iff.mp first
      obtain ⟨q, bs, rfl, -⟩ := List.map_eq_cons_iff.mp second
      exact spent r as q bs rfl rfl
    rw [interOnto.eq_def, Run.interOnto.eq_def]
    split
    · exact (none _ _ _ _ ‹_› ‹_›).elim
    · split
      · exact (spent _ _ _ _ rfl rfl).elim
      · rfl

theorem Faithful.inter_wide (a b : List Run) (insideA : ∀ r ∈ a, r.stop ≤ 65536) :
    A.inter (a.map Run.wide) (b.map Run.wide) = some ((Run.inter a b).map Run.wide) := by
  have shared := faithful.interOnto_wide a b #[] insideA
  rwa [Array.map_empty] at shared

theorem Faithful.cutOnto_wide (start stop : Nat) (bs : List Run) (out : Array Run)
    (inside : stop ≤ 65536) :
    A.cutOnto start stop (bs.map Run.wide) (out.map Run.wide) =
      some ((Run.cutOnto start stop bs out).map Run.wide) := by
  induction bs generalizing start out with
  | nil => exact faithful.pushPiece_wide start stop inside out
  | cons b bs ih =>
    have low := b.start.toNat_lt
    simp only [List.map_cons, cutOnto, Run.cutOnto, Run.start_wide, Run.stop_wide, Int.ofNat_lt,
      Int.ofNat_le]
    split
    · have later : max (start : Int) b.stop = (max start b.stop : Nat) := by omega
      rw [faithful.pushPiece_wide start b.start.toNat (by omega) out, Option.bind_eq_bind,
        Option.bind_some, later]
      by_cases covers : stop ≤ b.stop
      · rw [if_pos covers, if_pos covers]
        rfl
      · rw [if_neg covers, if_neg covers]
        exact ih _ _
    · exact faithful.pushPiece_wide start stop inside out

theorem Faithful.diffOnto_wide (a b : List Run) (out : Array Run)
    (insideA : ∀ r ∈ a, r.stop ≤ 65536) :
    A.diffOnto (a.map Run.wide) (b.map Run.wide) (out.map Run.wide) =
      some ((Run.diffOnto a b out).map Run.wide) := by
  induction a generalizing b out with
  | nil => rfl
  | cons r as ih =>
    have dropped : (b.map Run.wide).dropWhile (fun q => q.stop ≤ r.wide.start) =
        (b.dropWhile fun q => q.stop ≤ r.start.toNat).map Run.wide := by
      rw [List.dropWhile_map]
      simp only [Function.comp_def, Run.stop_wide, Run.start_wide, Int.ofNat_le]
    have cut := faithful.cutOnto_wide r.start.toNat r.stop
      (b.dropWhile fun q => q.stop ≤ r.start.toNat) out (insideA r List.mem_cons_self)
    rw [List.map_cons, diffOnto, Run.diffOnto, dropped, Run.start_wide, Run.stop_wide, cut]
    exact ih _ _ fun q member => insideA q (List.mem_cons_of_mem _ member)

theorem Faithful.diff_wide (a b : List Run) (insideA : ∀ r ∈ a, r.stop ≤ 65536) :
    A.diff (a.map Run.wide) (b.map Run.wide) = some ((Run.diff a b).map Run.wide) := by
  have left := faithful.diffOnto_wide a b #[] insideA
  rwa [Array.map_empty] at left

theorem Faithful.toggleOnto_wide (opened : Option Nat) (changes : List Nat) (out : Array Run)
    (pending : Run.Pending opened changes) :
    A.toggleOnto (opened.map Nat.cast) (changes.map Nat.cast) (out.map Run.wide) =
      some ((Run.toggleOnto opened changes out).map Run.wide) := by
  induction opened, changes, out using Run.toggleOnto.induct with
  | case1 opened out => cases opened <;> rfl
  | case2 p out => rfl
  | case3 start p out =>
    have made := faithful.ofSpan_wide ⟨start, p⟩ (pending.behind start rfl p List.mem_cons_self)
      (pending.inside p List.mem_cons_self)
    simp only at made
    rw [Run.toggleOnto, Array.map_push, List.map_cons, List.map_nil, Option.map_some, toggleOnto,
      made]
    rfl
  | case4 opened p changes out ih =>
    cases opened with
    | none =>
      rw [Run.toggleOnto, if_pos rfl, List.map_cons, List.map_cons, Option.map_none, toggleOnto,
        if_pos rfl]
      exact ih pending.cancel
    | some start =>
      rw [Run.toggleOnto, if_pos rfl, List.map_cons, List.map_cons, Option.map_some, toggleOnto,
        if_pos rfl]
      exact ih pending.cancel
  | case5 p q changes out other ih =>
    have apart : (p : Int) ≠ q := by omega
    rw [Run.toggleOnto, if_neg other, List.map_cons, List.map_cons, Option.map_none, toggleOnto,
      if_neg apart]
    exact ih (pending.start other)
  | case6 p q changes out other start ih =>
    have apart : (p : Int) ≠ q := by omega
    have made := faithful.ofSpan_wide ⟨start, p⟩ (pending.behind start rfl p List.mem_cons_self)
      (pending.inside p List.mem_cons_self)
    have rest := ih pending.finish
    simp only at made
    rw [Array.map_push] at rest
    rw [Run.toggleOnto, if_neg other, List.map_cons, List.map_cons, Option.map_some, toggleOnto,
      if_neg apart, made]
    exact rest

theorem Faithful.symmDiff_wide (a b : List Run) (canonicalA : Run.Canonical a)
    (canonicalB : Run.Canonical b) :
    A.symmDiff (a.map Run.wide) (b.map Run.wide) = some ((Run.symmDiff a b).map Run.wide) := by
  have merged : ((Run.boundaries a).map Nat.cast).merge ((Run.boundaries b).map Nat.cast)
      (fun x y : Int => x ≤ y) =
        ((Run.boundaries a).merge (Run.boundaries b) (fun x y => x ≤ y)).map Nat.cast := by
    refine (List.map_merge fun x _ y _ => ?_).symm
    simp
  have toggled := faithful.toggleOnto_wide none _ #[]
    (Run.pending_boundaries a b canonicalA canonicalB)
  rw [Array.map_empty] at toggled
  rw [symmDiff, Run.boundaries_wide, Run.boundaries_wide, merged]
  exact toggled

end Arithmetic

end Roaring
