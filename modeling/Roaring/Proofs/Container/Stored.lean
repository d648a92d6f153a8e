import Roaring.Proofs.Container.Answers

/-! What an encoding stores of a set. In each of the three it is determined by the set: the sorted list
of the values, their bits with their number, or the maximal runs. Every conversion gives what its
encoding stores; so a path of conversions leaves no trace, and one that returns restores the
container. -/
namespace Roaring

/-! Canonical lists of runs are lists of maximal runs. -/

namespace Run

variable {runs : List Run} {S : Finset UInt16}

/-- Neither the number before a run of a canonical list nor the one behind it is covered. -/
theorem Canonical.not_covers_beside (canonical : Canonical runs) {r : Run} (member : r ∈ runs)
    {n : Nat} (beside : n + 1 = r.start.toNat ∨ n = r.stop) : ¬ Covers runs n := by
  obtain ⟨front, back, rfl⟩ := List.append_of_mem member
  have nonempty := r.start_lt_stop
  intro covered
  rw [covers_append, covers_cons] at covered
  rcases covered with early | inside | late
  · have := canonical.apart n _ early (covers_start List.mem_cons_self)
    omega
  · omega
  · have := canonical.right.stop_lt n late
    omega

theorem Canonical.maximalRun (canonical : Canonical runs)
    (holds : ∀ v : UInt16, Covers runs v.toNat ↔ v ∈ S) {r : Run} (member : r ∈ runs) :
    MaximalRun S r.start r.last := by
  have nonempty := r.start_lt_stop
  have last := toNat_last r (canonical.2 r member)
  constructor
  case ordered =>
    rw [UInt16.le_iff_toNat_le]
    omega
  case held =>
    intro v low high
    rw [UInt16.le_iff_toNat_le] at low high
    exact (holds v).mp ⟨r, member, low, by omega⟩
  case before =>
    intro u next held
    exact canonical.not_covers_beside member (Or.inl next) ((holds u).mpr held)
  case behind =>
    intro u next held
    exact canonical.not_covers_beside member (Or.inr (by omega)) ((holds u).mpr held)

theorem eq_of_ends {q r : Run} (start : q.start = r.start) (last : q.last = r.last) : q = r := by
  obtain ⟨startQ, lengthQ⟩ := q
  obtain ⟨startR, lengthR⟩ := r
  obtain rfl : startQ = startR := start
  rw [Run.mk.injEq]
  exact ⟨rfl, UInt16.add_right_inj startQ |>.mp last⟩

/-- Two maximal runs with a value in common start together. -/
theorem start_le_of_maximalRun {q r : Run} (one : MaximalRun S q.start q.last)
    (other : MaximalRun S r.start r.last) (low : r.start.toNat ≤ q.start.toNat)
    (high : q.start.toNat ≤ r.last.toNat) : q.start = r.start := by
  apply UInt16.toNat_inj.mp
  by_contra apart
  have value : (q.start - 1).toNat = q.start.toNat - 1 := toNat_pred _ (by omega)
  apply one.before (q.start - 1) (by omega)
  apply other.held
  · rw [UInt16.le_iff_toNat_le]
    omega
  · rw [UInt16.le_iff_toNat_le]
    omega

theorem Canonical.mem_iff_maximalRun (canonical : Canonical runs)
    (holds : ∀ v : UInt16, Covers runs v.toNat ↔ v ∈ S) (q : Run) :
    q ∈ runs ↔ MaximalRun S q.start q.last := by
  refine ⟨canonical.maximalRun holds, fun maximal => ?_⟩
  have first := maximal.held q.start (UInt16.le_refl _) maximal.ordered
  obtain ⟨r, member, low, high⟩ := (holds q.start).mpr first
  have other := canonical.maximalRun holds member
  have last := toNat_last r (canonical.2 r member)
  have start := start_le_of_maximalRun maximal other low (by omega)
  rw [← start] at other
  rw [eq_of_ends start (maximal.last_unique other)]
  exact member

theorem Canonical.starts_ascending (canonical : Canonical runs) :
    runs.Pairwise (fun q r => q.start < r.start) := by
  refine canonical.1.imp fun {q r} apart => ?_
  have := q.start_lt_stop
  rw [UInt16.lt_iff_toNat_lt]
  omega

end Run

namespace Container

variable {c d x y : Container} {S : Finset UInt16}

/-- The container is what its encoding stores of the set. -/
def Stores : Container → Finset UInt16 → Prop
  | .array s, S => s.values.toList = S.sort
  | .bits b, S => (∀ v : UInt16, b.words.test v.toNat = true ↔ v ∈ S) ∧ b.cardinality = S.card
  | .runs r, S => r.runs.toList.Pairwise (fun p q => p.start < q.start) ∧
      ∀ q, q ∈ r.runs.toList ↔ MaximalRun S q.start q.last

theorem Stores.unique (first : x.Stores S) (second : y.Stores S) (same : x.kind = y.kind) :
    x = y := by
  cases x with
  | array s =>
    cases y with
    | array t =>
      obtain ⟨_⟩ := s
      obtain ⟨_⟩ := t
      rw [Container.array.injEq, ArraySet.mk.injEq]
      exact Array.toList_inj.mp (first.trans second.symm)
    | bits _ => contradiction
    | runs _ => contradiction
  | bits a =>
    cases y with
    | array _ => contradiction
    | bits b =>
      have same (v : UInt16) : v ∈ a ↔ v ∈ b := (first.1 v).trans (second.1 v).symm
      rw [BitSet.eq_of_mem_iff same (first.2.trans second.2.symm)]
    | runs _ => contradiction
  | runs r =>
    cases y with
    | array _ => contradiction
    | bits _ => contradiction
    | runs q =>
      have : Std.Irrefl fun p q : Run => p.start < q.start := ⟨fun p => UInt16.lt_irrefl p.start⟩
      have : Std.Antisymm fun p q : Run => p.start < q.start :=
        ⟨fun _ _ less more => absurd more (UInt16.lt_asymm less)⟩
      obtain ⟨_⟩ := r
      obtain ⟨_⟩ := q
      rw [Container.runs.injEq, RunSet.mk.injEq]
      apply Array.toList_inj.mp
      exact first.1.eq_of_mem_iff second.1 fun p => (first.2 p).trans (second.2 p).symm

theorem Ordered.stores (ordered : c.Ordered) (holds : ∀ v, v ∈ c ↔ v ∈ S) : c.Stores S := by
  cases c with
  | array s => exact eq_sort ordered fun v => Array.mem_toList_iff.trans (holds v)
  | bits b =>
    have formed : (bits b).WellFormed := ordered
    exact ⟨holds, formed.cardinality_eq_card holds⟩
  | runs r =>
    have canonical : Run.Canonical r.runs.toList := ordered
    exact ⟨canonical.starts_ascending, canonical.mem_iff_maximalRun holds⟩

/-- Conversions, one after the other, end in the encoding that was asked for last. A list on the way
may be longer than a list should be. -/
theorem Ordered.convertAlong_spec (kinds : List Kind) (ordered : c.Ordered) :
    ∃ d, kinds.foldlM convertTo c = .ok d ∧ d.Ordered ∧ d.kind = kinds.getLastD c.kind ∧
      ∀ v, v ∈ d ↔ v ∈ c := by
  induction kinds generalizing c with
  | nil => exact ⟨c, rfl, ordered, rfl, fun _ => Iff.rfl⟩
  | cons target kinds ih =>
    obtain ⟨next, step, orderedNext, kindNext, memNext⟩ := ordered.convertTo_spec target
    obtain ⟨d, rest, orderedD, kindD, memD⟩ := ih orderedNext
    refine ⟨d, ?_, orderedD, ?_, fun v => (memD v).trans (memNext v)⟩
    · rw [List.foldlM_cons, step]
      exact rest
    · rw [List.getLastD_cons, kindD, kindNext]

/-- What the conversions of a container that holds the set give. The list is also what the cursor hands
out. -/
structure Conversions (c : Container) (S : Finset UInt16) : Prop where
  toArraySet : ∃ shared, c.toArraySet = .ok ⟨⟨S.sort.toArray⟩, shared⟩
  scanned : ∀ n, walk (List.replicate n End.front) c.cursor = (List.range n).map (S.sort[·]?)
  toBitSet : ∃ b shared, c.toBitSet = .ok ⟨b, shared⟩ ∧
    (∀ v : UInt16, b.words.test v.toNat = true ↔ v ∈ S) ∧ b.cardinality = S.card
  toRunSet : c.toRunSet.encoded.WellFormed ∧ (runs c.toRunSet.encoded).Stores S
  toRunSet_full : (∀ v, v ∈ S) → c.toRunSet.encoded.runs = #[⟨0, 65535⟩]
  along : ∀ kinds : List Kind, ∃ d, kinds.foldlM convertTo c = .ok d ∧ d.Stores S ∧
    d.kind = kinds.getLastD c.kind
  returning : ∀ kinds : List Kind, kinds.getLastD c.kind = c.kind →
    kinds.foldlM convertTo c = .ok c

/-- Conversions are lossless: each gives the one way in which its encoding stores the set, and every path
that returns to the first encoding gives back the container as it was. -/
theorem conversions_unique (c : Container) (S : Finset UInt16) (formed : c.WellFormed)
    (holds : ∀ v, v ∈ c ↔ v ∈ S) :
    c.Conversions S ∧ ∀ x y : Container, x.Stores S → y.Stores S → x.kind = y.kind → x = y := by
  refine ⟨?_, fun x y => Stores.unique⟩
  have sorted := formed.values_eq_sort holds
  have along (kinds : List Kind) : ∃ d, kinds.foldlM convertTo c = .ok d ∧ d.Stores S ∧
      d.kind = kinds.getLastD c.kind := by
    obtain ⟨d, done, ordered, kind, mem⟩ := formed.ordered.convertAlong_spec kinds
    exact ⟨d, done, ordered.stores fun v => (mem v).trans (holds v), kind⟩
  constructor
  case toArraySet =>
    obtain ⟨shared, done⟩ := formed.ordered.toArraySet_spec
    exact ⟨shared, by rw [done, ← sorted]⟩
  case scanned =>
    intro n
    rw [Cursor.follows.walk_eq _ _ _ formed.left_cursor, sorted, walk_front]
  case toBitSet =>
    obtain ⟨b, shared, done, formedB, mem⟩ := formed.ordered.toBitSet_spec
    have ordered : (bits b).Ordered := formedB
    exact ⟨b, shared, done, ordered.stores fun v => (mem v).trans (holds v)⟩
  case toRunSet =>
    obtain ⟨formedR, mem⟩ := formed.ordered.toRunSet_spec
    have ordered : (runs c.toRunSet.encoded).Ordered := formedR
    exact ⟨formedR, ordered.stores fun v => (mem v).trans (holds v)⟩
  case toRunSet_full =>
    intro all
    obtain ⟨formedR, mem⟩ := formed.ordered.toRunSet_spec
    have full := RunSet.ext formedR RunSet.wellFormed_full fun v =>
      iff_of_true ((mem v).mpr ((holds v).mpr (all v))) (RunSet.mem_full v)
    rw [full]
    rfl
  case along => exact along
  case returning =>
    intro kinds returns
    obtain ⟨d, done, stored, kind⟩ := along kinds
    rw [done, stored.unique (formed.ordered.stores holds) (kind.trans returns)]

/-- A run over the border of two words and a run at the end of the domain, as a list, as bits and back. -/
theorem conversions_unique_returning :
    let c := runs ⟨#[⟨60, 9⟩, ⟨65530, 5⟩]⟩
    let S := c.values.toList.toFinset
    c.WellFormed ∧ (∀ v, v ∈ c ↔ v ∈ S) ∧ c.Conversions S ∧
      [Kind.array, .bits, .runs].foldlM convertTo c = .ok c := by
  intro c S
  have formed : c.WellFormed := by decide
  have holds (v : UInt16) : v ∈ c ↔ v ∈ S := by
    rw [List.mem_toFinset, Array.mem_toList_iff, formed.mem_values]
  have conversions := (conversions_unique c S formed holds).1
  exact ⟨formed, holds, conversions, conversions.returning _ rfl⟩

end Container

end Roaring
