import Roaring.Fault

/-! Parts of arrays, by index. What is read has to be there, and a size must not fall below zero. -/
namespace Roaring

variable {α : Type}

def minus (a b : Nat) : Checked Nat := if b ≤ a then .ok (a - b) else .error .belowZero

theorem minus_eq_ok {a b d : Nat} : minus a b = .ok d ↔ b ≤ a ∧ d = a - b := by
  rw [minus]
  split <;> simp [*, eq_comm]

theorem minus_of_le {a b : Nat} (le : b ≤ a) : minus a b = .ok (a - b) := if_pos le

def fetch (xs : Array α) (i : Nat) : Checked α :=
  match xs[i]? with
  | some x => .ok x
  | none => .error .sliceOutOfReach

/-- The elements at the indices `lo, …, hi - 1`. -/
def stretch (xs : Array α) (lo hi : Nat) : Checked (Array α) :=
  if lo ≤ hi ∧ hi ≤ xs.size then .ok (xs.extract lo hi) else .error .sliceOutOfReach

theorem stretch_of_le {xs : Array α} {lo hi : Nat} (forwards : lo ≤ hi) (inside : hi ≤ xs.size) :
    stretch xs lo hi = .ok (xs.extract lo hi) := if_pos ⟨forwards, inside⟩

/-- The array with the elements at the indices `lo, …, hi - 1` replaced by those of `mid`. -/
def splice (xs : Array α) (lo hi : Nat) (mid : Array α) : Array α :=
  xs.extract 0 lo ++ mid ++ xs.extract hi xs.size

end Roaring
