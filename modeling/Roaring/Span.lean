/-! Half-open intervals of natural numbers, the form in which every range of values is given. -/
namespace Roaring

/-- The numbers from `start` up to, but not including, `stop`. -/
structure Span where
  start : Nat
  stop : Nat
deriving DecidableEq

namespace Span

instance : Membership Nat Span := ⟨fun s n => s.start ≤ n ∧ n < s.stop⟩

theorem mem_def (s : Span) (n : Nat) : n ∈ s ↔ s.start ≤ n ∧ n < s.stop := Iff.rfl

instance (n : Nat) (s : Span) : Decidable (n ∈ s) :=
  inferInstanceAs (Decidable (s.start ≤ n ∧ n < s.stop))

/-- A span without members; a span written backwards is one too. -/
def isEmpty (s : Span) : Bool := s.stop ≤ s.start

def length (s : Span) : Nat := s.stop - s.start

theorem isEmpty_iff (s : Span) : s.isEmpty = true ↔ ∀ n, n ∉ s := by
  simp only [isEmpty, decide_eq_true_eq, mem_def]
  constructor
  · intro backwards n inside
    omega
  · intro none
    have := none s.start
    omega

instance : ToString Span := ⟨fun s => s!"{s.start}..{s.stop}"⟩

end Span

end Roaring
