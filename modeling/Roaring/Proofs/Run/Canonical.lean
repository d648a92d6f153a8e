import Roaring.Run.Merge
import Mathlib.Data.List.Basic

/-! What a list of runs covers, and which lists are canonical. A canonical list is built up from
shorter ones that cover numbers with a gap between them, so that the gaps between runs need not be
followed through an algorithm: what it covers decides. -/
namespace Roaring.Run

def Covers (runs : List Run) (n : Nat) : Prop := ∃ r ∈ runs, r.start.toNat ≤ n ∧ n < r.stop

instance (runs : List Run) (n : Nat) : Decidable (Covers runs n) :=
  inferInstanceAs (Decidable (∃ r ∈ runs, _))

@[simp] theorem covers_nil (n : Nat) : Covers [] n ↔ False := by
  simp [Covers]

@[simp] theorem covers_cons (r : Run) (runs : List Run) (n : Nat) :
    Covers (r :: runs) n ↔ (r.start.toNat ≤ n ∧ n < r.stop) ∨ Covers runs n := by
  simp [Covers]

@[simp] theorem covers_append (xs ys : List Run) (n : Nat) :
    Covers (xs ++ ys) n ↔ Covers xs n ∨ Covers ys n := by
  simp [Covers, or_and_right, exists_or]

theorem stop_eq (r : Run) : r.stop = r.start.toNat + r.count := Nat.add_assoc _ _ 1

theorem start_lt_stop (r : Run) : r.start.toNat < r.stop := by
  rw [stop]
  omega

theorem covers_start {runs : List Run} {r : Run} (member : r ∈ runs) :
    Covers runs r.start.toNat :=
  ⟨r, member, Nat.le_refl _, r.start_lt_stop⟩

theorem covers_last {runs : List Run} {r : Run} (member : r ∈ runs) : Covers runs (r.stop - 1) := by
  have := r.start_lt_stop
  exact ⟨r, member, by omega, by omega⟩

/-! Runs made from spans. -/

theorem start_ofSpan (s : Span) (inside : s.start < 65536) :
    (ofSpan s).start.toNat = s.start := by
  simpa [ofSpan] using inside

theorem stop_ofSpan (s : Span) (nonempty : s.start < s.stop) (inside : s.stop ≤ 65536) :
    (ofSpan s).stop = s.stop := by
  have start : s.start % 65536 = s.start := Nat.mod_eq_of_lt (by omega)
  have length : (s.stop - s.start - 1) % 65536 = s.stop - s.start - 1 :=
    Nat.mod_eq_of_lt (by omega)
  simp only [stop, ofSpan, Nat.toUInt16_eq, UInt16.toNat_ofNat', start, length]
  omega

theorem count_ofSpan (s : Span) (nonempty : s.start < s.stop) (inside : s.stop ≤ 65536) :
    (ofSpan s).count = s.length := by
  have start := start_ofSpan s (Nat.lt_of_lt_of_le nonempty inside)
  have stop := stop_ofSpan s nonempty inside
  rw [stop_eq, start] at stop
  rw [Span.length, ← stop, Nat.add_sub_cancel_left]

theorem start_point (v : UInt16) : (point v).start.toNat = v.toNat := rfl

theorem stop_point (v : UInt16) : (point v).stop = v.toNat + 1 := rfl

theorem toNat_last (r : Run) (inside : r.stop ≤ 65536) : r.last.toNat = r.stop - 1 := by
  rw [stop] at inside ⊢
  rw [last, UInt16.toNat_add]
  omega

/-! Canonical lists. -/

theorem canonical_nil : Canonical [] := by
  simp [Canonical]

theorem Canonical.append {xs ys : List Run} (first : Canonical xs) (second : Canonical ys)
    (apart : ∀ m n, Covers xs m → Covers ys n → m + 1 < n) : Canonical (xs ++ ys) := by
  refine ⟨List.pairwise_append.mpr ⟨first.1, second.1, ?_⟩, ?_⟩
  · intro a inFirst b inSecond
    have gap := apart _ _ (covers_last inFirst) (covers_start inSecond)
    have := a.start_lt_stop
    omega
  · intro r member
    rcases List.mem_append.mp member with inFirst | inSecond
    · exact first.2 r inFirst
    · exact second.2 r inSecond

theorem canonical_singleton (r : Run) (inside : r.stop ≤ 65536) : Canonical [r] := by
  simpa [Canonical] using inside

theorem Canonical.cons {r : Run} {runs : List Run} (rest : Canonical runs)
    (inside : r.stop ≤ 65536) (apart : ∀ n, Covers runs n → r.stop < n) :
    Canonical (r :: runs) := by
  apply (canonical_singleton r inside).append rest
  intro m n coveredM coveredN
  have := apart n coveredN
  simp at coveredM
  omega

theorem Canonical.left {xs ys : List Run} (all : Canonical (xs ++ ys)) : Canonical xs :=
  ⟨(List.pairwise_append.mp all.1).1, fun r member => all.2 r (List.mem_append_left _ member)⟩

theorem Canonical.right {xs ys : List Run} (all : Canonical (xs ++ ys)) : Canonical ys :=
  ⟨(List.pairwise_append.mp all.1).2.1, fun r member => all.2 r (List.mem_append_right _ member)⟩

theorem Canonical.apart {xs ys : List Run} (all : Canonical (xs ++ ys)) (m n : Nat)
    (first : Covers xs m) (second : Covers ys n) : m + 1 < n := by
  obtain ⟨a, inFirst, -, endA⟩ := first
  obtain ⟨b, inSecond, startB, -⟩ := second
  have gap := (List.pairwise_append.mp all.1).2.2 a inFirst b inSecond
  omega

theorem Canonical.tail {r : Run} {runs : List Run} (all : Canonical (r :: runs)) :
    Canonical runs :=
  Canonical.right (show Canonical ([r] ++ runs) from all)

theorem Canonical.stop_le {r : Run} {runs : List Run} (all : Canonical (r :: runs)) :
    r.stop ≤ 65536 :=
  all.2 r List.mem_cons_self

/-- Behind the first run of a canonical list there is a gap. -/
theorem Canonical.stop_lt {r : Run} {runs : List Run} (all : Canonical (r :: runs)) (n : Nat)
    (covered : Covers runs n) : r.stop < n := by
  obtain ⟨b, member, start, -⟩ := covered
  have gap := (List.pairwise_cons.mp all.1).1 b member
  omega

theorem Canonical.not_covers_of_lt {r : Run} {runs : List Run} (all : Canonical (r :: runs))
    {n : Nat} (below : n < r.start.toNat) : ¬ Covers (r :: runs) n := by
  intro covered
  have some := r.start_lt_stop
  rcases (covers_cons r runs n).mp covered with ⟨start, -⟩ | later
  · omega
  · have gap := all.stop_lt n later
    omega

theorem Canonical.lt_of_covers {runs : List Run} (canonical : Canonical runs) (n : Nat)
    (covered : Covers runs n) : n < 65536 := by
  obtain ⟨r, member, -, below⟩ := covered
  have := canonical.2 r member
  omega

/-- Each run takes the place of a value and of a gap behind it. -/
theorem Canonical.length_le {runs : List Run} (canonical : Canonical runs) (bound : Nat)
    (inside : bound ≤ 65537) (after : ∀ n, Covers runs n → bound ≤ n) :
    bound + 2 * runs.length ≤ 65537 := by
  induction runs generalizing bound with
  | nil => simpa using inside
  | cons r runs ih =>
    have start := after _ (covers_start List.mem_cons_self)
    have some := r.start_lt_stop
    have stop := canonical.stop_le
    have rest := ih canonical.tail (r.stop + 1) (by omega) fun n covered =>
      canonical.stop_lt n covered
    rw [List.length_cons]
    omega

/-- Runs that end by `m` do not matter from `m` on. -/
theorem covers_dropWhile (runs : List Run) (m n : Nat) (later : m ≤ n) :
    Covers (runs.dropWhile (fun r => r.stop ≤ m)) n ↔ Covers runs n := by
  induction runs with
  | nil => rfl
  | cons r runs ih =>
    rw [List.dropWhile_cons]
    split
    · rename_i ended
      have past : r.stop ≤ m := by simpa using ended
      rw [ih, covers_cons]
      constructor
      · exact Or.inr
      · rintro (inside | rest)
        · omega
        · exact rest
    · rfl

theorem Canonical.dropWhile {runs : List Run} (canonical : Canonical runs) (p : Run → Bool) :
    Canonical (runs.dropWhile p) := by
  rw [← List.takeWhile_append_dropWhile (p := p) (l := runs)] at canonical
  exact canonical.right

/-- Once the runs that end by `n` are dropped, the first one left decides about `n`. -/
theorem covers_iff_head (runs : List Run) (canonical : Canonical runs) (n : Nat) :
    Covers runs n ↔
      ((runs.dropWhile (fun r => r.stop ≤ n)).head?.any (fun r => r.start.toNat ≤ n)) = true := by
  rw [← covers_dropWhile runs n n (Nat.le_refl n)]
  have kept := canonical.dropWhile (fun r => r.stop ≤ n)
  have first := List.head?_dropWhile_not (fun r : Run => decide (r.stop ≤ n)) runs
  generalize runs.dropWhile (fun r => r.stop ≤ n) = left at kept first ⊢
  cases left with
  | nil => simp
  | cons r rest =>
    simp only [List.head?_cons, decide_eq_false_iff_not, Nat.not_le] at first
    simp only [covers_cons, List.head?_cons, Option.any_some, decide_eq_true_eq]
    constructor
    · rintro (⟨start, -⟩ | later)
      · exact start
      · have := kept.stop_lt n later
        have := r.start_lt_stop
        omega
    · intro start
      exact Or.inl ⟨start, first⟩

/-! The first runs of two lists, of which the second covers what the first does. -/

theorem Canonical.start_le {a b : Run} {xs ys : List Run} (second : Canonical (b :: ys))
    (more : ∀ n, Covers (a :: xs) n → Covers (b :: ys) n) : b.start.toNat ≤ a.start.toNat := by
  have low := more _ (covers_start List.mem_cons_self)
  rcases (covers_cons b ys _).mp low with ⟨start, -⟩ | later
  · exact start
  · have gap := second.stop_lt _ later
    have := b.start_lt_stop
    omega

theorem Canonical.stop_le_stop {a b : Run} {xs ys : List Run} (second : Canonical (b :: ys))
    (more : ∀ n, Covers (a :: xs) n → Covers (b :: ys) n) (start : a.start = b.start) :
    a.stop ≤ b.stop := by
  by_contra short
  have := b.start_lt_stop
  have inside : Covers (a :: xs) b.stop := (covers_cons a xs _).mpr (Or.inl (by rw [start]; omega))
  rcases (covers_cons b ys _).mp (more _ inside) with ⟨-, below⟩ | later
  · omega
  · have gap := second.stop_lt _ later
    omega

theorem Canonical.covers_tail {r : Run} {xs ys : List Run} (first : Canonical (r :: xs))
    (more : ∀ n, Covers (r :: xs) n → Covers (r :: ys) n) (n : Nat) (covered : Covers xs n) :
    Covers ys n := by
  have past := first.stop_lt n covered
  rcases (covers_cons r ys n).mp (more n ((covers_cons r xs n).mpr (Or.inr covered))) with
    ⟨-, below⟩ | found
  · omega
  · exact found

/-- A canonical list is determined by what it covers. -/
theorem Canonical.ext {xs ys : List Run} (first : Canonical xs) (second : Canonical ys)
    (same : ∀ n, Covers xs n ↔ Covers ys n) : xs = ys := by
  induction xs generalizing ys with
  | nil =>
    cases ys with
    | nil => rfl
    | cons b ys => exact absurd ((same _).mpr (covers_start List.mem_cons_self)) (by simp)
  | cons a xs ih =>
    cases ys with
    | nil => exact absurd ((same _).mp (covers_start List.mem_cons_self)) (by simp)
    | cons b ys =>
      have more := fun n => (same n).mp
      have less := fun n => (same n).mpr
      have start : a.start = b.start :=
        UInt16.toNat_inj.mp (Nat.le_antisymm (first.start_le less) (second.start_le more))
      have stop : a.stop = b.stop :=
        Nat.le_antisymm (second.stop_le_stop more start) (first.stop_le_stop less start.symm)
      have length : a.length = b.length := by
        rw [Run.stop, Run.stop, start] at stop
        exact UInt16.toNat_inj.mp (by omega)
      have sameRun : a = b := by
        cases a
        cases b
        exact (Run.mk.injEq ..).mpr ⟨start, length⟩
      subst sameRun
      congr 1
      apply ih first.tail second.tail
      exact fun n => ⟨first.covers_tail more n, second.covers_tail less n⟩

end Roaring.Run
