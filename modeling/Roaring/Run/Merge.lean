import Roaring.Run.Basic

/-! Set algebra on lists of runs. A canonical list has its runs in order, inside the 16-bit domain,
and with a gap between neighbours; the results for canonical lists are canonical. -/
namespace Roaring.Run

/-- Canonical lists: each run ends before the next one starts, and the last by 65536. -/
def Canonical (runs : List Run) : Prop :=
  runs.Pairwise (fun a b => a.stop < b.start.toNat) ∧ ∀ r ∈ runs, r.stop ≤ 65536

instance (runs : List Run) : Decidable (Canonical runs) := inferInstanceAs (Decidable (_ ∧ _))

/-- Joins each run to the open one while they touch, and otherwise closes the open one. -/
def coalesceOnto (opened : Run) : List Run → Array Run → Array Run
  | [], out => out.push opened
  | r :: rest, out =>
    match opened.coalesce r with
    | some joined => coalesceOnto joined rest out
    | none => coalesceOnto r rest (out.push opened)

/-- Joins neighbours that overlap or touch, in a list ordered by start. -/
def coalesceAll : List Run → Array Run
  | [] => #[]
  | r :: rest => coalesceOnto r rest #[]

def union (a b : List Run) : Array Run :=
  coalesceAll (a.merge b (fun x y => x.start ≤ y.start))

def interOnto : List Run → List Run → Array Run → Array Run
  | a :: as, b :: bs, out =>
    let overlap : Span := ⟨max a.start.toNat b.start.toNat, min a.stop b.stop⟩
    let out := if overlap.isEmpty then out else out.push (ofSpan overlap)
    if a.stop < b.stop then interOnto as (b :: bs) out else interOnto (a :: as) bs out
  | _, _, out => out
termination_by as bs => as.length + bs.length

def inter (a b : List Run) : Array Run := interOnto a b #[]

def interCountOnto : List Run → List Run → Nat → Nat
  | a :: as, b :: bs, total =>
    let total := total + (min a.stop b.stop - max a.start.toNat b.start.toNat)
    if a.stop < b.stop then interCountOnto as (b :: bs) total
    else interCountOnto (a :: as) bs total
  | _, _, total => total
termination_by as bs => as.length + bs.length

def interCount (a b : List Run) : Nat := interCountOnto a b 0

/-- Adds to `out` what the list leaves of the span `start..stop`. -/
def cutOnto (start stop : Nat) : List Run → Array Run → Array Run
  | [], out => if start < stop then out.push (ofSpan ⟨start, stop⟩) else out
  | b :: bs, out =>
    if b.start.toNat < stop then
      let out := if start < b.start.toNat then out.push (ofSpan ⟨start, b.start.toNat⟩) else out
      if stop ≤ b.stop then out else cutOnto (max start b.stop) stop bs out
    else if start < stop then out.push (ofSpan ⟨start, stop⟩) else out

/-- Adds to `out` what `bs` leaves of each run. Runs of `bs` that end before the current run are
behind all later ones too and are dropped. -/
def diffOnto : List Run → List Run → Array Run → Array Run
  | [], _, out => out
  | a :: as, bs, out =>
    let bs := bs.dropWhile (fun b => b.stop ≤ a.start.toNat)
    diffOnto as bs (cutOnto a.start.toNat a.stop bs out)

def diff (a b : List Run) : Array Run := diffOnto a b #[]

def boundaries (runs : List Run) : List Nat := runs.flatMap (fun r => [r.start.toNat, r.stop])

/-- Reads positions at which membership changes: `opened` holds the start of the run under way.
Two changes at one position cancel. -/
def toggleOnto : Option Nat → List Nat → Array Run → Array Run
  | _, [], out => out
  | none, [_], out => out
  | some start, [p], out => out.push (ofSpan ⟨start, p⟩)
  | opened, p :: q :: rest, out =>
    if p = q then toggleOnto opened rest out
    else
      match opened with
      | none => toggleOnto (some p) (q :: rest) out
      | some start => toggleOnto none (q :: rest) (out.push (ofSpan ⟨start, p⟩))

def symmDiff (a b : List Run) : Array Run :=
  toggleOnto none ((boundaries a).merge (boundaries b) (fun x y => x ≤ y)) #[]

end Roaring.Run
