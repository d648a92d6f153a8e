import Roaring.Proofs.Run.Canonical
import Mathlib.Data.List.Perm.Basic

/-! Set algebra on lists of runs: for canonical lists each operation gives the canonical list that
covers the union, intersection, difference or symmetric difference. Every statement about a loop
says what it appends to the runs that are already out. -/
namespace Roaring.Run

theorem merge_sorted {α : Type} (key : α → Nat) (a b : List α)
    (sortedA : a.Pairwise (fun x y => key x ≤ key y))
    (sortedB : b.Pairwise (fun x y => key x ≤ key y)) :
    (a.merge b (fun x y => key x ≤ key y)).Pairwise (fun x y => key x ≤ key y) := by
  have trans (x y z : α) (first : decide (key x ≤ key y) = true)
      (second : decide (key y ≤ key z) = true) : decide (key x ≤ key z) = true := by
    rw [decide_eq_true_eq] at *
    omega
  have total (x y : α) : (decide (key x ≤ key y) || decide (key y ≤ key x)) = true := by
    rw [Bool.or_eq_true, decide_eq_true_eq, decide_eq_true_eq]
    omega
  have merged := List.pairwise_merge trans total a b (sortedA.imp (by simp)) (sortedB.imp (by simp))
  exact merged.imp (by simp)

/-- Runs in the order of their starts, inside the domain; they may overlap. -/
structure Staged (runs : List Run) : Prop where
  sorted : runs.Pairwise (fun a b => a.start.toNat ≤ b.start.toNat)
  inside : ∀ r ∈ runs, r.stop ≤ 65536

theorem Staged.tail {r : Run} {runs : List Run} (staged : Staged (r :: runs)) : Staged runs :=
  ⟨(List.pairwise_cons.mp staged.sorted).2,
    fun a member => staged.inside a (List.mem_cons_of_mem r member)⟩

theorem Canonical.staged {runs : List Run} (canonical : Canonical runs) : Staged runs := by
  refine ⟨canonical.1.imp ?_, canonical.2⟩
  intro a b gap
  have := a.start_lt_stop
  omega

theorem coalesce_eq_some {r next joined : Run} (done : r.coalesce next = some joined)
    (insideR : r.stop ≤ 65536) (insideNext : next.stop ≤ 65536) :
    joined.start.toNat = r.start.toNat ∧ joined.stop = max r.stop next.stop ∧
      r.start.toNat ≤ next.start.toNat ∧ next.start.toNat ≤ r.stop := by
  rw [coalesce] at done
  split at done
  · rename_i touching
    obtain ⟨ordered, touches⟩ := touching
    rw [Option.some.injEq] at done
    subst done
    have := r.start_lt_stop
    exact ⟨start_ofSpan _ (by simp only; omega), stop_ofSpan _ (by simp only; omega) (by
      simp only; omega), UInt16.le_iff_toNat_le.mp ordered, touches⟩
  · simp at done

theorem stop_lt_of_coalesce_eq_none {r next : Run} (done : r.coalesce next = none)
    (ordered : r.start.toNat ≤ next.start.toNat) : r.stop < next.start.toNat := by
  rw [coalesce] at done
  split at done
  · simp at done
  · rename_i apart
    rw [UInt16.le_iff_toNat_le] at apart
    omega

/-- Joining from an open run on gives canonical runs that start where the open one does. -/
theorem coalesceOnto_spec (opened : Run) (runs : List Run) (out : Array Run)
    (staged : Staged (opened :: runs)) :
    ∃ joined, (coalesceOnto opened runs out).toList = out.toList ++ joined ∧
      Canonical joined ∧ ∀ n, Covers joined n ↔ Covers (opened :: runs) n := by
  induction runs generalizing opened out with
  | nil =>
    exact ⟨[opened], by simp [coalesceOnto], canonical_singleton opened (staged.inside _ (by simp)),
      fun n => Iff.rfl⟩
  | cons r runs ih =>
    have ordered := (List.pairwise_cons.mp staged.sorted).1
    have insideOpened := staged.inside opened (by simp)
    have insideR := staged.inside r (by simp)
    rw [coalesceOnto]
    cases step : opened.coalesce r with
    | some joined =>
      obtain ⟨start, stop, low, touches⟩ := coalesce_eq_some step insideOpened insideR
      have restaged : Staged (joined :: runs) := by
        refine ⟨List.pairwise_cons.mpr ⟨?_, (List.pairwise_cons.mp staged.tail.sorted).2⟩, ?_⟩
        · intro a member
          rw [start]
          exact ordered a (List.mem_cons_of_mem r member)
        · intro a member
          rcases List.mem_cons.mp member with rfl | later
          · omega
          · exact staged.inside a (by simp [later])
      obtain ⟨kept, added, canonical, covers⟩ := ih joined out restaged
      refine ⟨kept, added, canonical, ?_⟩
      intro n
      have := opened.start_lt_stop
      have := r.start_lt_stop
      rw [covers n, covers_cons, covers_cons, covers_cons, ← or_assoc]
      apply or_congr_left
      omega
    | none =>
      have gap := stop_lt_of_coalesce_eq_none step (ordered r (by simp))
      obtain ⟨kept, added, canonical, covers⟩ := ih r (out.push opened) staged.tail
      refine ⟨opened :: kept, by simp [added], canonical.cons insideOpened ?_, ?_⟩
      · intro n covered
        obtain ⟨a, member, start, -⟩ := (covers n).mp covered
        rcases List.mem_cons.mp member with rfl | later
        · omega
        · have := (List.pairwise_cons.mp staged.tail.sorted).1 a later
          omega
      · intro n
        rw [covers_cons, covers n, covers_cons opened]

theorem coalesceAll_spec (runs : List Run) (staged : Staged runs) :
    Canonical (coalesceAll runs).toList ∧ ∀ n, Covers (coalesceAll runs).toList n ↔ Covers runs n := by
  cases runs with
  | nil => exact ⟨canonical_nil, fun n => Iff.rfl⟩
  | cons r runs =>
    obtain ⟨joined, added, canonical, covers⟩ := coalesceOnto_spec r runs #[] staged
    have whole : (coalesceAll (r :: runs)).toList = joined := by simpa [coalesceAll] using added
    rw [whole]
    exact ⟨canonical, covers⟩

theorem covers_perm {xs ys : List Run} (perm : xs.Perm ys) (n : Nat) :
    Covers xs n ↔ Covers ys n := by
  simp only [Covers, perm.mem_iff]

theorem union_spec (a b : List Run) (canonicalA : Canonical a) (canonicalB : Canonical b) :
    Canonical (union a b).toList ∧
      ∀ n, Covers (union a b).toList n ↔ Covers a n ∨ Covers b n := by
  have perm : (a.merge b (fun x y => x.start ≤ y.start)).Perm (a ++ b) := List.merge_perm_append _
  have staged : Staged (a.merge b (fun x y => x.start ≤ y.start)) := by
    constructor
    · have order : (fun x y : Run => decide (x.start ≤ y.start)) =
          fun x y => decide (x.start.toNat ≤ y.start.toNat) := by
        funext x y
        rw [decide_eq_decide, UInt16.le_iff_toNat_le]
      rw [order]
      exact merge_sorted (fun r => r.start.toNat) a b canonicalA.staged.sorted
        canonicalB.staged.sorted
    · intro r member
      rcases List.mem_append.mp (perm.mem_iff.mp member) with inA | inB
      · exact canonicalA.2 r inA
      · exact canonicalB.2 r inB
  obtain ⟨canonical, covers⟩ := coalesceAll_spec _ staged
  refine ⟨canonical, ?_⟩
  intro n
  rw [union, covers n, covers_perm perm, covers_append]

/-! Pieces. The other operations cut runs into pieces, some of them empty. -/

def piece (start stop : Nat) : List Run := if start < stop then [ofSpan ⟨start, stop⟩] else []

theorem canonical_piece (start stop : Nat) (inside : stop ≤ 65536) :
    Canonical (piece start stop) := by
  rw [piece]
  split
  · rename_i nonempty
    exact canonical_singleton _ (by rw [stop_ofSpan _ nonempty inside]; exact inside)
  · exact canonical_nil

theorem covers_piece (start stop n : Nat) (inside : stop ≤ 65536) :
    Covers (piece start stop) n ↔ start ≤ n ∧ n < stop := by
  rw [piece]
  split
  · rename_i nonempty
    rw [covers_cons, start_ofSpan _ (by simp only; omega), stop_ofSpan _ nonempty inside]
    simp
  · simp only [covers_nil, false_iff]
    omega

theorem toList_push_piece (start stop : Nat) (out : Array Run) :
    (if start < stop then out.push (ofSpan ⟨start, stop⟩) else out).toList =
      out.toList ++ piece start stop := by
  rw [piece]
  split <;> simp

/-! Intersection. -/

theorem toList_push_overlap (a b : Run) (out : Array Run) :
    (if Span.isEmpty ⟨max a.start.toNat b.start.toNat, min a.stop b.stop⟩ = true then out
      else out.push (ofSpan ⟨max a.start.toNat b.start.toNat, min a.stop b.stop⟩)).toList =
      out.toList ++ piece (max a.start.toNat b.start.toNat) (min a.stop b.stop) := by
  rw [← toList_push_piece]
  congr 1
  simp only [Span.isEmpty, decide_eq_true_eq]
  split
  · rw [if_neg (by omega)]
  · rw [if_pos (by omega)]

/-- The overlap with the other list's first run is all that a run still has to share with it when
it ends no later. -/
theorem inter_step {a b : Run} {as bs kept : List Run} (canonicalA : Canonical (a :: as))
    (canonicalB : Canonical (b :: bs)) (ends : a.stop ≤ b.stop) (canonical : Canonical kept)
    (covers : ∀ n, Covers kept n ↔ Covers as n ∧ Covers (b :: bs) n) :
    Canonical (piece (max a.start.toNat b.start.toNat) (min a.stop b.stop) ++ kept) ∧
      ∀ n, Covers (piece (max a.start.toNat b.start.toNat) (min a.stop b.stop) ++ kept) n ↔
        Covers (a :: as) n ∧ Covers (b :: bs) n := by
  have insideA := canonicalA.stop_le
  refine ⟨(canonical_piece _ _ (by omega)).append canonical ?_, ?_⟩
  · intro m n coveredM coveredN
    have past := canonicalA.stop_lt n ((covers n).mp coveredN).1
    have := (covers_piece _ _ m (by omega)).mp coveredM
    omega
  · intro n
    rw [covers_append, covers n, covers_piece _ _ n (by omega)]
    simp only [covers_cons]
    have gapB := canonicalB.stop_lt n
    constructor
    · rintro (both | ⟨inA, inB⟩)
      · exact ⟨Or.inl (by omega), Or.inl (by omega)⟩
      · exact ⟨Or.inr inA, inB⟩
    · rintro ⟨firstA | laterA, inB⟩
      · rcases inB with firstB | laterB
        · exact Or.inl (by omega)
        · have := gapB laterB
          omega
      · exact Or.inr ⟨laterA, inB⟩

theorem interOnto_spec (a b : List Run) (out : Array Run) (canonicalA : Canonical a)
    (canonicalB : Canonical b) :
    ∃ kept, (interOnto a b out).toList = out.toList ++ kept ∧ Canonical kept ∧
      ∀ n, Covers kept n ↔ Covers a n ∧ Covers b n := by
  induction a, b, out using interOnto.induct with
  | case1 a as b bs out overlap out' ends ih =>
    obtain ⟨kept, added, canonical, covers⟩ := ih canonicalA.tail canonicalB
    refine ⟨piece (max a.start.toNat b.start.toNat) (min a.stop b.stop) ++ kept, ?_,
      inter_step canonicalA canonicalB (Nat.le_of_lt ends) canonical covers⟩
    rw [interOnto, if_pos ends, ← List.append_assoc, ← toList_push_overlap]
    exact added
  | case2 a as b bs out overlap out' ends ih =>
    obtain ⟨kept, added, canonical, covers⟩ := ih canonicalA canonicalB.tail
    have step := inter_step canonicalB canonicalA (Nat.le_of_not_lt ends) canonical fun n =>
      (covers n).trans and_comm
    rw [Nat.max_comm, Nat.min_comm] at step
    refine ⟨piece (max a.start.toNat b.start.toNat) (min a.stop b.stop) ++ kept, ?_, step.1,
      fun n => (step.2 n).trans and_comm⟩
    rw [interOnto, if_neg ends, ← List.append_assoc, ← toList_push_overlap]
    exact added
  | case3 a b out spent =>
    refine ⟨[], ?_, canonical_nil, ?_⟩
    · rw [interOnto]
      · simp
      · exact spent
    · intro n
      cases a with
      | nil => simp
      | cons a as =>
        cases b with
        | nil => simp
        | cons b bs => exact (spent a as b bs rfl rfl).elim

theorem inter_spec (a b : List Run) (canonicalA : Canonical a) (canonicalB : Canonical b) :
    Canonical (inter a b).toList ∧
      ∀ n, Covers (inter a b).toList n ↔ Covers a n ∧ Covers b n := by
  obtain ⟨kept, added, canonical, covers⟩ := interOnto_spec a b #[] canonicalA canonicalB
  have whole : (inter a b).toList = kept := by simpa [inter] using added
  rw [whole]
  exact ⟨canonical, covers⟩

/-! Difference. -/

/-- Up to the end of the first run of a list, a span is cut where that run starts. -/
theorem cut_before {b : Run} {bs : List Run} (canonicalB : Canonical (b :: bs)) (start stop n : Nat)
    (ends : n < b.stop) :
    (start ≤ n ∧ n < stop) ∧ ¬ Covers (b :: bs) n ↔
      start ≤ n ∧ n < stop ∧ n < b.start.toNat := by
  constructor
  · rintro ⟨⟨low, high⟩, uncovered⟩
    refine ⟨low, high, ?_⟩
    by_contra past
    exact uncovered ((covers_cons b bs n).mpr (Or.inl (by omega)))
  · rintro ⟨low, high, before⟩
    exact ⟨⟨low, high⟩, canonicalB.not_covers_of_lt before⟩

/-- What is left of a span is what the list does not cover. -/
theorem cutOnto_spec (start stop : Nat) (bs : List Run) (out : Array Run) (inside : stop ≤ 65536)
    (canonicalB : Canonical bs) :
    ∃ kept, (cutOnto start stop bs out).toList = out.toList ++ kept ∧ Canonical kept ∧
      ∀ n, Covers kept n ↔ (start ≤ n ∧ n < stop) ∧ ¬ Covers bs n := by
  induction bs generalizing start out with
  | nil =>
    refine ⟨piece start stop, toList_push_piece start stop out, canonical_piece _ _ inside, ?_⟩
    intro n
    simp [covers_piece _ _ n inside]
  | cons b bs ih =>
    have nonempty := b.start_lt_stop
    rw [cutOnto]
    by_cases reaches : b.start.toNat < stop
    · rw [if_pos reaches]
      dsimp only
      by_cases ends : stop ≤ b.stop
      · rw [if_pos ends]
        refine ⟨piece start b.start.toNat, toList_push_piece start _ out,
          canonical_piece _ _ (by omega), ?_⟩
        intro n
        rw [covers_piece _ _ n (by omega)]
        rcases Nat.lt_or_ge n b.stop with before | past
        · rw [cut_before canonicalB start stop n before]
          omega
        · omega
      · rw [if_neg ends]
        obtain ⟨kept, added, canonical, covers⟩ := ih (max start b.stop)
          (if start < b.start.toNat then out.push (ofSpan ⟨start, b.start.toNat⟩) else out)
          canonicalB.tail
        refine ⟨piece start b.start.toNat ++ kept, ?_, ?_, ?_⟩
        · rw [← List.append_assoc, ← toList_push_piece]
          exact added
        · apply (canonical_piece _ _ (by omega)).append canonical
          intro m n coveredM coveredN
          have := (covers_piece _ _ m (by omega)).mp coveredM
          have := ((covers n).mp coveredN).1
          omega
        · intro n
          rw [covers_append, covers n, covers_piece _ _ n (by omega)]
          rcases Nat.lt_or_ge n b.stop with before | past
          · rw [cut_before canonicalB start stop n before]
            omega
          · have notHere : ¬ (b.start.toNat ≤ n ∧ n < b.stop) := by omega
            rw [covers_cons, or_iff_right notHere, or_iff_right (by omega)]
            exact and_congr_left fun _ => by omega
    · rw [if_neg reaches]
      refine ⟨piece start stop, toList_push_piece start stop out, canonical_piece _ _ inside, ?_⟩
      intro n
      rw [covers_piece _ _ n inside]
      exact (and_iff_left_of_imp fun within => canonicalB.not_covers_of_lt (by omega)).symm

theorem diffOnto_spec (a b : List Run) (out : Array Run) (canonicalA : Canonical a)
    (canonicalB : Canonical b) :
    ∃ kept, (diffOnto a b out).toList = out.toList ++ kept ∧ Canonical kept ∧
      ∀ n, Covers kept n ↔ Covers a n ∧ ¬ Covers b n := by
  induction a generalizing b out with
  | nil => exact ⟨[], by simp [diffOnto], canonical_nil, by simp⟩
  | cons a as ih =>
    have canonicalLeft := canonicalB.dropWhile (fun b => b.stop ≤ a.start.toNat)
    obtain ⟨pieces, addedPieces, canonicalPieces, coversPieces⟩ :=
      cutOnto_spec a.start.toNat a.stop _ out canonicalA.stop_le canonicalLeft
    obtain ⟨kept, added, canonical, covers⟩ := ih _
      (cutOnto a.start.toNat a.stop (b.dropWhile (fun b => b.stop ≤ a.start.toNat)) out)
      canonicalA.tail canonicalLeft
    refine ⟨pieces ++ kept, ?_, ?_, ?_⟩
    · rw [diffOnto, ← List.append_assoc, ← addedPieces]
      exact added
    · apply canonicalPieces.append canonical
      intro m n coveredM coveredN
      have := ((coversPieces m).mp coveredM).1
      have := canonicalA.stop_lt n ((covers n).mp coveredN).1
      omega
    · intro n
      rw [covers_append, coversPieces n, covers n, covers_cons, or_and_right]
      apply or_congr
      · apply and_congr_right
        intro within
        rw [covers_dropWhile b _ n within.1]
      · apply and_congr_right
        intro later
        have := canonicalA.stop_lt n later
        have := a.start_lt_stop
        rw [covers_dropWhile b _ n (by omega)]

theorem diff_spec (a b : List Run) (canonicalA : Canonical a) (canonicalB : Canonical b) :
    Canonical (diff a b).toList ∧
      ∀ n, Covers (diff a b).toList n ↔ Covers a n ∧ ¬ Covers b n := by
  obtain ⟨kept, added, canonical, covers⟩ := diffOnto_spec a b #[] canonicalA canonicalB
  have whole : (diff a b).toList = kept := by simpa [diff] using added
  rw [whole]
  exact ⟨canonical, covers⟩

/-! Symmetric difference. -/

/-- An odd number of changes has been passed at `n`. -/
def Toggled (changes : List Nat) (n : Nat) : Prop := changes.countP (· ≤ n) % 2 = 1

@[simp] theorem toggled_nil (n : Nat) : Toggled [] n ↔ False := by
  simp [Toggled]

theorem toggled_cons_of_le (p : Nat) (changes : List Nat) (n : Nat) (passed : p ≤ n) :
    Toggled (p :: changes) n ↔ ¬ Toggled changes n := by
  rw [Toggled, List.countP_cons_of_pos (by simpa using passed), Toggled]
  omega

theorem toggled_cons_of_lt (p : Nat) (changes : List Nat) (n : Nat) (ahead : n < p) :
    Toggled (p :: changes) n ↔ Toggled changes n := by
  rw [Toggled, List.countP_cons_of_neg (by simpa using ahead), Toggled]

theorem not_toggled_of_lt (changes : List Nat) (n : Nat) (ahead : ∀ p ∈ changes, n < p) :
    ¬ Toggled changes n := by
  rw [Toggled, List.countP_eq_zero.mpr]
  · omega
  · intro p member
    simpa using ahead p member

theorem toggled_merge (a b : List Nat) (n : Nat) :
    Toggled (a.merge b (fun x y => x ≤ y)) n ↔ ¬ (Toggled a n ↔ Toggled b n) := by
  rw [Toggled, (List.merge_perm_append _).countP_eq, List.countP_append,
    Toggled, Toggled]
  omega

/-- A number is covered when more runs have started than ended before it. -/
theorem toggled_boundaries (runs : List Run) (canonical : Canonical runs) (n : Nat) :
    Toggled (boundaries runs) n ↔ Covers runs n := by
  induction runs with
  | nil => simp [boundaries]
  | cons r runs ih =>
    have rest := ih canonical.tail
    have gap := canonical.stop_lt n
    have nonempty := r.start_lt_stop
    change Toggled (r.start.toNat :: r.stop :: boundaries runs) n ↔ _
    rw [covers_cons, ← rest]
    rcases Nat.lt_or_ge n r.start.toNat with before | started
    · rw [toggled_cons_of_lt _ _ _ before, toggled_cons_of_lt _ _ _ (by omega)]
      constructor
      · exact Or.inr
      · rintro (inside | later)
        · omega
        · exact later
    · rw [toggled_cons_of_le _ _ _ started]
      rcases Nat.lt_or_ge n r.stop with inside | past
      · rw [toggled_cons_of_lt _ _ _ inside]
        constructor
        · intro _
          exact Or.inl ⟨started, inside⟩
        · intro _ later
          have := gap (rest.mp later)
          omega
      · rw [toggled_cons_of_le _ _ _ past, Classical.not_not]
        constructor
        · exact Or.inr
        · rintro (inside | later)
          · omega
          · exact later

/-- Changes still to be read, in order, as many as close every run; the open one began before. -/
structure Pending (opened : Option Nat) (changes : List Nat) : Prop where
  sorted : changes.Pairwise (· ≤ ·)
  inside : ∀ p ∈ changes, p ≤ 65536
  even : (opened.toList ++ changes).length % 2 = 0
  behind : ∀ start ∈ opened, ∀ p ∈ changes, start < p

theorem Pending.cancel {opened : Option Nat} {p : Nat} {changes : List Nat}
    (pending : Pending opened (p :: p :: changes)) : Pending opened changes := by
  obtain ⟨sorted, inside, even, behind⟩ := pending
  refine ⟨(List.pairwise_cons.mp (List.pairwise_cons.mp sorted).2).2,
    fun q member => inside q (by simp [member]), ?_,
    fun start at_ q member => behind start at_ q (by simp [member])⟩
  simp only [List.length_append, List.length_cons] at even ⊢
  omega

theorem Pending.start {p q : Nat} {changes : List Nat} (pending : Pending none (p :: q :: changes))
    (other : p ≠ q) : Pending (some p) (q :: changes) := by
  obtain ⟨sorted, inside, even, behind⟩ := pending
  obtain ⟨first, rest⟩ := List.pairwise_cons.mp sorted
  refine ⟨rest, fun a member => inside a (by simp [List.mem_cons.mp member]), ?_, ?_⟩
  · simp only [Option.toList_none, List.nil_append, List.length_cons, Option.toList_some,
      List.cons_append] at even ⊢
    omega
  · intro start at_ a member
    obtain rfl := Option.mem_some.mp at_
    have low := first q (by simp)
    rcases List.mem_cons.mp member with rfl | later
    · omega
    · have := (List.pairwise_cons.mp rest).1 a later
      omega

theorem Pending.finish {start p : Nat} {changes : List Nat}
    (pending : Pending (some start) (p :: changes)) : Pending none changes := by
  obtain ⟨sorted, inside, even, behind⟩ := pending
  refine ⟨(List.pairwise_cons.mp sorted).2, fun a member => inside a (by simp [member]), ?_,
    by simp⟩
  simp only [Option.toList_some, List.cons_append, List.nil_append, List.length_cons,
    Option.toList_none] at even ⊢
  omega

theorem toggled_cancel (before changes : List Nat) (p n : Nat) :
    Toggled (before ++ p :: p :: changes) n ↔ Toggled (before ++ changes) n := by
  simp only [Toggled, List.countP_append, List.countP_cons]
  split <;> omega

theorem toggled_open_close (start p : Nat) (changes : List Nat) (n : Nat) (ordered : start < p)
    (later : Toggled changes n → p ≤ n) :
    Toggled (start :: p :: changes) n ↔ (start ≤ n ∧ n < p) ∨ Toggled changes n := by
  rcases Nat.lt_or_ge n p with ahead | passed
  · have none : ¬ Toggled changes n := fun toggled => by have := later toggled; omega
    rcases Nat.lt_or_ge n start with before | started
    · rw [toggled_cons_of_lt _ _ _ before, toggled_cons_of_lt _ _ _ ahead]
      constructor
      · exact Or.inr
      · rintro (within | toggled)
        · omega
        · exact toggled
    · rw [toggled_cons_of_le _ _ _ started, toggled_cons_of_lt _ _ _ ahead]
      exact ⟨fun _ => Or.inl ⟨started, ahead⟩, fun _ => none⟩
  · rw [toggled_cons_of_le _ _ _ (by omega), toggled_cons_of_le _ _ _ passed, Classical.not_not]
    constructor
    · exact Or.inr
    · rintro (within | toggled)
      · omega
      · exact toggled

theorem toggleOnto_spec (opened : Option Nat) (changes : List Nat) (out : Array Run)
    (pending : Pending opened changes) :
    ∃ kept, (toggleOnto opened changes out).toList = out.toList ++ kept ∧ Canonical kept ∧
      ∀ n, Covers kept n ↔ Toggled (opened.toList ++ changes) n := by
  induction opened, changes, out using toggleOnto.induct with
  | case1 opened out =>
    cases opened with
    | none => exact ⟨[], by simp [toggleOnto], canonical_nil, by simp⟩
    | some start => exact absurd pending.even (by simp)
  | case2 p out => exact absurd pending.even (by simp)
  | case3 start p out =>
    have ordered := pending.behind start rfl p (by simp)
    have bounded := pending.inside p (by simp)
    refine ⟨piece start p, ?_, canonical_piece _ _ bounded, ?_⟩
    · rw [toggleOnto, ← toList_push_piece, if_pos ordered]
    · intro n
      rw [covers_piece _ _ n bounded]
      simpa using (toggled_open_close start p [] n ordered (by simp)).symm
  | case4 opened p changes out ih =>
    obtain ⟨kept, added, canonical, covers⟩ := ih pending.cancel
    refine ⟨kept, ?_, canonical, ?_⟩
    · cases opened with
      | none => rw [toggleOnto, if_pos rfl, added]
      | some start => rw [toggleOnto, if_pos rfl, added]
    · intro n
      rw [covers n, toggled_cancel]
  | case5 p q changes out other ih =>
    obtain ⟨kept, added, canonical, covers⟩ := ih (pending.start other)
    refine ⟨kept, ?_, canonical, covers⟩
    rw [toggleOnto, if_neg other]
    exact added
  | case6 p q changes out other start ih =>
    obtain ⟨kept, added, canonical, covers⟩ := ih pending.finish
    have ordered := pending.behind start rfl p (by simp)
    have bounded := pending.inside p (by simp)
    have late (n : Nat) (toggled : Toggled (q :: changes) n) : p < n := by
      obtain ⟨first, rest⟩ := List.pairwise_cons.mp pending.sorted
      have := first q (by simp)
      by_contra early
      apply not_toggled_of_lt (q :: changes) n _ toggled
      intro a member
      rcases List.mem_cons.mp member with rfl | later
      · omega
      · have := (List.pairwise_cons.mp rest).1 a later
        omega
    refine ⟨piece start p ++ kept, ?_, ?_, ?_⟩
    · rw [toggleOnto, if_neg other, ← List.append_assoc, ← toList_push_piece, if_pos ordered]
      exact added
    · apply (canonical_piece _ _ bounded).append canonical
      intro m n coveredM coveredN
      have := (covers_piece _ _ m bounded).mp coveredM
      have := late n ((covers n).mp coveredN)
      omega
    · intro n
      rw [covers_append, covers_piece _ _ n bounded, covers n]
      exact (toggled_open_close start p (q :: changes) n ordered
        (fun toggled => Nat.le_of_lt (late n toggled))).symm

theorem boundaries_le (runs : List Run) (canonical : Canonical runs) :
    ∀ p ∈ boundaries runs, p ≤ 65536 := by
  intro p member
  obtain ⟨r, inRuns, atEnd⟩ := List.mem_flatMap.mp member
  have := canonical.2 r inRuns
  have := r.start_lt_stop
  rcases List.mem_pair.mp atEnd with rfl | rfl
  · omega
  · omega

theorem length_boundaries (runs : List Run) : (boundaries runs).length = 2 * runs.length := by
  simp [boundaries, List.length_flatMap]
  omega

theorem boundaries_sorted (runs : List Run) (canonical : Canonical runs) :
    (boundaries runs).Pairwise (· ≤ ·) := by
  induction runs with
  | nil => exact List.Pairwise.nil
  | cons r runs ih =>
    have nonempty := r.start_lt_stop
    have later : ∀ p ∈ boundaries runs, r.stop ≤ p := by
      intro p member
      obtain ⟨a, inRuns, atEnd⟩ := List.mem_flatMap.mp member
      have gap := canonical.stop_lt _ (covers_start inRuns)
      have := a.start_lt_stop
      rcases List.mem_pair.mp atEnd with rfl | rfl
      · omega
      · omega
    refine List.pairwise_cons.mpr ⟨?_, List.pairwise_cons.mpr ⟨later, ih canonical.tail⟩⟩
    intro p member
    rcases List.mem_cons.mp member with rfl | rest
    · omega
    · have := later p rest
      omega

/-- The changes along two lists, merged, close every run. -/
theorem pending_boundaries (a b : List Run) (canonicalA : Canonical a) (canonicalB : Canonical b) :
    Pending none ((boundaries a).merge (boundaries b) (fun x y => x ≤ y)) := by
  have perm : ((boundaries a).merge (boundaries b) (fun x y => x ≤ y)).Perm
      (boundaries a ++ boundaries b) := List.merge_perm_append _
  refine ⟨?_, ?_, ?_, by simp⟩
  · exact merge_sorted id _ _ (boundaries_sorted a canonicalA) (boundaries_sorted b canonicalB)
  · intro p member
    rcases List.mem_append.mp (perm.mem_iff.mp member) with inA | inB
    · exact boundaries_le a canonicalA p inA
    · exact boundaries_le b canonicalB p inB
  · rw [Option.toList_none, List.nil_append, perm.length_eq, List.length_append,
      length_boundaries, length_boundaries]
    omega

theorem symmDiff_spec (a b : List Run) (canonicalA : Canonical a) (canonicalB : Canonical b) :
    Canonical (symmDiff a b).toList ∧
      ∀ n, Covers (symmDiff a b).toList n ↔ ¬ (Covers a n ↔ Covers b n) := by
  obtain ⟨kept, added, canonical, covers⟩ :=
    toggleOnto_spec _ _ #[] (pending_boundaries a b canonicalA canonicalB)
  have whole : (symmDiff a b).toList = kept := by simpa [symmDiff] using added
  rw [whole]
  refine ⟨canonical, ?_⟩
  intro n
  rw [covers n, Option.toList_none, List.nil_append, toggled_merge,
    toggled_boundaries a canonicalA, toggled_boundaries b canonicalB]

end Roaring.Run
