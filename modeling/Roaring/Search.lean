/-! Bisection of an array. The order of the probes is fixed, so that the answer is determined on
arrays in any order; on a sorted array it is the usual one. -/
namespace Roaring.Search

/-- Where an element stands: at an index, or in the gap before an index. -/
inductive Place where
  | hit (index : Nat)
  | gap (index : Nat)
deriving DecidableEq

/-- Halves the window of `size` indices from `base` until one is left. The upper half is kept when
its first element passes `low`, which means that the element is not past the target. -/
@[specialize] def narrow (low : Nat → Bool) (base size : Nat) : Nat :=
  if size ≤ 1 then base
  else narrow low (if low (base + size / 2) then base + size / 2 else base) (size - size / 2)
termination_by size

/-- The place of the element that `order` calls equal, where `order` compares an element with the
target. -/
@[specialize] def locate {α : Type} (xs : Array α) (order : α → Ordering) : Place :=
  let i := narrow (fun i => xs[i]?.any (fun x => order x != .gt)) 0 xs.size
  match xs[i]? with
  | none => .gap 0
  | some x =>
    match order x with
    | .eq => .hit i
    | .lt => .gap (i + 1)
    | .gt => .gap i

/-- The first index from `start` on whose element fails `p`, when the elements that pass come
first. -/
@[specialize] def partitionPointFrom {α : Type} (xs : Array α) (start : Nat) (p : α → Bool) : Nat :=
  let i := narrow (fun i => xs[i]?.any p) start (xs.size - start)
  if xs[i]?.any p then i + 1 else i

/-- The number of leading elements that pass `p`, when the elements that pass come first. -/
@[inline] def partitionPoint {α : Type} (xs : Array α) (p : α → Bool) : Nat :=
  partitionPointFrom xs 0 p

end Roaring.Search
