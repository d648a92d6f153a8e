import Roaring.Words.Basic
import Roaring.Proofs.Words.Basic

/-! Looking through the words from either end finds the first and the last set position. -/
namespace Roaring.Words

theorem firstSetIn_spec (ws : Words) (n i : Nat) :
    match ws.firstSetIn n i with
    | some s => 64 * i ≤ s ∧ s < 64 * (i + n) ∧ ws.test s = true ∧
        ∀ q, 64 * i ≤ q → q < s → ws.test q = false
    | none => ∀ q, 64 * i ≤ q → q < 64 * (i + n) → ws.test q = false := by
  induction n generalizing i with
  | zero =>
    intro q low high
    omega
  | succ n ih =>
    rw [firstSetIn]
    by_cases nonzero : ws.word i = 0
    · have clear (q : Nat) (low : 64 * i ≤ q) (high : q < 64 * (i + 1)) : ws.test q = false := by
        rw [test, show q / 64 = i by omega, nonzero, Word.test_zero]
      have rest := ih (i + 1)
      simp only [nonzero, bne_self_eq_false, Bool.false_eq_true, if_false]
      cases found : ws.firstSetIn n (i + 1) with
      | some s =>
        rw [found] at rest
        obtain ⟨low, high, set, before⟩ := rest
        refine ⟨by omega, by omega, set, ?_⟩
        intro q above below
        rcases Nat.lt_or_ge q (64 * (i + 1)) with here | later
        · exact clear q above here
        · exact before q later below
      | none =>
        rw [found] at rest
        intro q above below
        rcases Nat.lt_or_ge q (64 * (i + 1)) with here | later
        · exact clear q above here
        · exact rest q later (by omega)
    · obtain ⟨short, set, clear⟩ := Word.trailingZeros_spec (ws.word i) nonzero
      simp only [bne_iff_ne, ne_eq, nonzero, not_false_eq_true, if_true]
      refine ⟨by omega, by omega, ?_, ?_⟩
      · rw [test_block ws i _ short, set]
      · intro q above below
        have off := clear (q - 64 * i) (by omega)
        rw [← test_block ws i _ (by omega)] at off
        rwa [show 64 * i + (q - 64 * i) = q by omega] at off

theorem lastSetIn_spec (ws : Words) (n : Nat) :
    match ws.lastSetIn n with
    | some s => s < 64 * n ∧ ws.test s = true ∧ ∀ q, s < q → q < 64 * n → ws.test q = false
    | none => ∀ q, q < 64 * n → ws.test q = false := by
  induction n with
  | zero =>
    intro q below
    omega
  | succ n ih =>
    rw [lastSetIn]
    by_cases nonzero : ws.word n = 0
    · have clear (q : Nat) (low : 64 * n ≤ q) (high : q < 64 * (n + 1)) : ws.test q = false := by
        rw [test, show q / 64 = n by omega, nonzero, Word.test_zero]
      simp only [nonzero, bne_self_eq_false, Bool.false_eq_true, if_false]
      cases found : ws.lastSetIn n with
      | some s =>
        rw [found] at ih
        obtain ⟨bound, set, after⟩ := ih
        refine ⟨by omega, set, ?_⟩
        intro q above below
        rcases Nat.lt_or_ge q (64 * n) with earlier | here
        · exact after q above earlier
        · exact clear q here below
      | none =>
        rw [found] at ih
        intro q below
        rcases Nat.lt_or_ge q (64 * n) with earlier | here
        · exact ih q earlier
        · exact clear q here below
    · obtain ⟨short, set, clear⟩ := Word.leadingZeros_spec (ws.word n) nonzero
      simp only [bne_iff_ne, ne_eq, nonzero, not_false_eq_true, if_true]
      generalize (ws.word n).leadingZeros = z at short set clear ⊢
      rw [show 64 * n + 63 - z = 64 * n + (63 - z) by omega]
      refine ⟨by omega, by rw [test_block ws n _ (by omega), set], ?_⟩
      intro q above below
      have off := clear (q - 64 * n) (by omega) (by omega)
      rw [← test_block ws n _ (by omega)] at off
      rwa [show 64 * n + (q - 64 * n) = q by omega] at off

end Roaring.Words
