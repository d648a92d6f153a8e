import Roaring.Splice

/-! The order check on arrays: every element is smaller than the next. -/
namespace Roaring.Ascending

variable {α : Type} [LT α] [DecidableLT α]

def adjacent : List α → Bool
  | a :: b :: rest => a < b && adjacent (b :: rest)
  | _ => true

def chunkSize : Nat := 33

/-- Looks at the chunk from index `i` on, or at all that is left when that is not more than a chunk.
Tells whether neighbours are in order or, if they are and more is left, where the next chunk starts:
with the last element of this one, so that no pair of neighbours is left out. -/
def turn (xs : Array α) (i : Nat) : Checked (Bool ⊕ Nat) := do
  if i < (← minus xs.size chunkSize) then
    if adjacent (← stretch xs i (i + chunkSize)).toList then return .inr (i + (chunkSize - 1))
    else return .inl false
  else return .inl (adjacent (← stretch xs i xs.size).toList)

theorem turn_advances {xs : Array α} {i next : Nat} (step : turn xs i = .ok (.inr next)) :
    i < xs.size - chunkSize ∧ next = i + (chunkSize - 1) := by
  obtain ⟨last, bound, step⟩ := bind_eq_ok.mp step
  obtain ⟨-, rfl⟩ := minus_eq_ok.mp bound
  split at step
  · obtain ⟨chunk, -, step⟩ := bind_eq_ok.mp step
    split at step
    · exact ⟨‹_›, (Sum.inr.inj (Except.ok.inj step)).symm⟩
    · cases step
  · obtain ⟨rest, -, step⟩ := bind_eq_ok.mp step
    cases step

/-- Compares neighbours chunk by chunk from index `i` on. -/
def inChunksFrom (xs : Array α) (i : Nat) : Checked Bool :=
  match _ : turn xs i with
  | .error fault => .error fault
  | .ok (.inl answer) => .ok answer
  | .ok (.inr next) => inChunksFrom xs next
termination_by xs.size - i
decreasing_by
  rename_i goesOn
  obtain ⟨more, rfl⟩ := turn_advances goesOn
  simp only [chunkSize] at more ⊢
  omega

/-- Whether every element is smaller than the next. Less than a chunk is looked at as a whole. -/
def check (xs : Array α) : Checked Bool :=
  if xs.size < chunkSize then .ok (adjacent xs.toList) else inChunksFrom xs 0

end Roaring.Ascending
