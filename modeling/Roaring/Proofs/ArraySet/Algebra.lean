import Roaring.ArraySet
import Roaring.Proofs.Run.Canonical
import Mathlib.Data.List.Sort
import Mathlib.Data.List.TakeWhile

/-! Set algebra on ascending lists of values. The walks that keep values of one list only amount to
filtering that list; the walk that mixes two lists gives an ascending list again. -/
namespace Roaring.ArraySet

def Mixed (single both : Bool) (as bs : List UInt16) (v : UInt16) : Prop :=
  (both = true ∧ v ∈ as ∧ v ∈ bs) ∨ (single = true ∧ ¬ (v ∈ as ↔ v ∈ bs))

theorem mixed_cons_same (single both : Bool) (a : UInt16) (as bs : List UInt16) (v : UInt16)
    (behindA : ∀ x ∈ as, a < x) (behindB : ∀ x ∈ bs, a < x) :
    Mixed single both (a :: as) (a :: bs) v ↔
      (both = true ∧ v = a) ∨ Mixed single both as bs v := by
  have absentA : a ∉ as := fun member => UInt16.lt_irrefl a (behindA a member)
  have absentB : a ∉ bs := fun member => UInt16.lt_irrefl a (behindB a member)
  by_cases here : v = a
  · subst here
    simp [Mixed, absentA, absentB]
  · simp [Mixed, here]

theorem mixed_cons_left (single both : Bool) (a : UInt16) (as bs : List UInt16) (v : UInt16)
    (behindA : ∀ x ∈ as, a < x) (behindB : ∀ x ∈ bs, a < x) :
    Mixed single both (a :: as) bs v ↔ (single = true ∧ v = a) ∨ Mixed single both as bs v := by
  have absentA : a ∉ as := fun member => UInt16.lt_irrefl a (behindA a member)
  have absentB : a ∉ bs := fun member => UInt16.lt_irrefl a (behindB a member)
  by_cases here : v = a
  · subst here
    simp [Mixed, absentA, absentB]
  · simp [Mixed, here]

theorem mixed_comm (single both : Bool) (as bs : List UInt16) (v : UInt16) :
    Mixed single both as bs v ↔ Mixed single both bs as v := by
  rw [Mixed, Mixed, and_comm (a := v ∈ as), iff_comm (a := v ∈ as)]

theorem Mixed.mem {single both : Bool} {as bs : List UInt16} {v : UInt16}
    (mixed : Mixed single both as bs v) : v ∈ as ∨ v ∈ bs := by
  rcases mixed with ⟨-, inA, -⟩ | ⟨-, differ⟩
  · exact Or.inl inA
  · by_contra neither
    exact differ (by tauto)

theorem mixed_nil (single both : Bool) (bs : List UInt16) (v : UInt16) :
    Mixed single both [] bs v ↔ single = true ∧ v ∈ bs := by
  simp [Mixed]

def Puts (result out : Array UInt16) (keep : UInt16 → Prop) : Prop :=
  ∃ kept, result.toList = out.toList ++ kept ∧ kept.Pairwise (· < ·) ∧ ∀ v, v ∈ kept ↔ keep v

theorem puts_rest (single both : Bool) (bs : List UInt16) (out : Array UInt16)
    (sorted : bs.Pairwise (· < ·)) :
    Puts (if single then out ++ bs else out) out (Mixed single both [] bs) := by
  cases single with
  | true => exact ⟨bs, by simp, sorted, fun v => by simp [mixed_nil]⟩
  | false => exact ⟨[], by simp, List.Pairwise.nil, fun v => by simp [mixed_nil]⟩

/-- A step that decides about a value below all that the rest of the walk keeps. -/
theorem Puts.step {result out : Array UInt16} {keep : Bool} {a : UInt16}
    {whole later : UInt16 → Prop} (rest : Puts result (if keep then out.push a else out) later)
    (behind : ∀ v, later v → a < v) (decided : ∀ v, whole v ↔ (keep = true ∧ v = a) ∨ later v) :
    Puts result out whole := by
  obtain ⟨kept, added, sorted, mem⟩ := rest
  have first : ∀ v ∈ kept, a < v := fun v member => behind v ((mem v).mp member)
  cases keep with
  | true =>
    refine ⟨a :: kept, by simp [added], List.pairwise_cons.mpr ⟨first, sorted⟩, fun v => ?_⟩
    rw [List.mem_cons, mem, decided]
    simp
  | false =>
    refine ⟨kept, added, sorted, fun v => ?_⟩
    rw [mem, decided]
    simp

theorem Mixed.behind {single both : Bool} {as bs : List UInt16} {a : UInt16}
    (behindA : ∀ v ∈ as, a < v) (behindB : ∀ v ∈ bs, a < v) (v : UInt16)
    (mixed : Mixed single both as bs v) : a < v := by
  rcases mixed.mem with inA | inB
  · exact behindA v inA
  · exact behindB v inB

theorem behind_cons {a b : UInt16} {bs : List UInt16} (first : a < b)
    (sorted : (b :: bs).Pairwise (· < ·)) : ∀ v ∈ b :: bs, a < v := by
  intro v member
  rcases List.mem_cons.mp member with rfl | later
  · exact first
  · exact UInt16.lt_trans first ((List.pairwise_cons.mp sorted).1 v later)

/-- Each step decides about the smaller of the two first values; everything later is greater. -/
theorem mergeOnto_spec (single both : Bool) (as bs : List UInt16) (out : Array UInt16)
    (sortedA : as.Pairwise (· < ·)) (sortedB : bs.Pairwise (· < ·)) :
    Puts (mergeOnto single both as bs out) out (Mixed single both as bs) := by
  induction as generalizing bs out with
  | nil =>
    rw [mergeOnto]
    exact puts_rest single both bs out sortedB
  | cons a as ihA =>
    obtain ⟨behindA, restA⟩ := List.pairwise_cons.mp sortedA
    induction bs generalizing out with
    | nil =>
      obtain ⟨kept, added, sorted, mem⟩ := puts_rest single both (a :: as) out sortedA
      rw [mergeOnto]
      · refine ⟨kept, added, sorted, ?_⟩
        intro v
        rw [mem v, mixed_comm]
      · simp
    | cons b bs ihB =>
      obtain ⟨behindB, restB⟩ := List.pairwise_cons.mp sortedB
      rw [mergeOnto]
      split
      · rename_i same
        subst same
        apply (ihA bs _ restA restB).step (Mixed.behind behindA behindB)
        exact fun v => mixed_cons_same single both a as bs v behindA behindB
      · split
        · rename_i other first
          have behind := behind_cons first sortedB
          apply (ihA (b :: bs) _ restA sortedB).step (Mixed.behind behindA behind)
          exact fun v => mixed_cons_left single both a as (b :: bs) v behindA behind
        · rename_i other notFirst
          have first : b < a := by
            rw [UInt16.lt_iff_toNat_lt] at *
            rw [← UInt16.toNat_inj] at other
            omega
          have behind := behind_cons first sortedA
          apply (ihB _ restB).step (Mixed.behind behind behindB)
          intro v
          rw [mixed_comm single both (a :: as) (b :: bs),
            mixed_cons_left single both b bs (a :: as) v behindB behind,
            mixed_comm single both bs]

theorem merge_values (single both : Bool) (s t : ArraySet) (formedS : s.WellFormed)
    (formedT : t.WellFormed) :
    (mergeOnto single both s.values.toList t.values.toList #[]).toList.Pairwise (· < ·) ∧
      ∀ v, v ∈ mergeOnto single both s.values.toList t.values.toList #[] ↔
        (both = true ∧ v ∈ s.values ∧ v ∈ t.values) ∨
          (single = true ∧ ¬ (v ∈ s.values ↔ v ∈ t.values)) := by
  obtain ⟨kept, added, sorted, mem⟩ := mergeOnto_spec single both s.values.toList t.values.toList
    #[] formedS.ascending formedT.ascending
  have whole : (mergeOnto single both s.values.toList t.values.toList #[]).toList = kept := by
    simpa using added
  refine ⟨whole ▸ sorted, ?_⟩
  intro v
  rw [← Array.mem_toList_iff, whole, mem v, Mixed, Array.mem_toList_iff, Array.mem_toList_iff]

/-! The walks that filter the first list. -/

theorem filter_toList (s : ArraySet) (keep : UInt16 → Bool) :
    (s.filter keep).values.toList = s.values.toList.filter keep := by
  simp [filter]

theorem WellFormed.of_sublist {s t : ArraySet} (formed : s.WellFormed)
    (some_ : t.values.toList.Sublist s.values.toList) : t.WellFormed := by
  refine ⟨formed.ascending.sublist some_, ?_⟩
  have fewer := some_.length_le
  rw [Array.length_toList, Array.length_toList] at fewer
  exact Nat.le_trans fewer formed.short

/-- Values below `a` do not matter from `a` on. -/
theorem mem_dropWhile_lt (bs : List UInt16) (a v : UInt16) (later : ¬ v < a) :
    v ∈ bs.dropWhile (· < a) ↔ v ∈ bs := by
  conv_rhs => rw [← List.takeWhile_append_dropWhile (p := (· < a)) (l := bs), List.mem_append]
  constructor
  · exact Or.inr
  · rintro (dropped | left)
    · exact absurd (by simpa using List.mem_takeWhile_imp dropped) later
    · exact left

/-- Once smaller values are dropped, the first one left decides about `a`. -/
theorem head?_dropWhile_lt (bs : List UInt16) (a : UInt16) (sorted : bs.Pairwise (· < ·)) :
    (bs.dropWhile (· < a)).head? = some a ↔ a ∈ bs := by
  rw [← mem_dropWhile_lt bs a a (UInt16.lt_irrefl a)]
  have sortedLeft : (bs.dropWhile (· < a)).Pairwise (· < ·) :=
    sorted.sublist (List.dropWhile_sublist _)
  have notBelow := List.head?_dropWhile_not (fun v : UInt16 => decide (v < a)) bs
  cases left : bs.dropWhile (· < a) with
  | nil => simp
  | cons b rest =>
    simp only [left, List.head?_cons, decide_eq_false_iff_not] at notBelow
    rw [left] at sortedLeft
    rw [List.head?_cons, Option.some.injEq, List.mem_cons]
    constructor
    · exact fun same => Or.inl same.symm
    · rintro (same | later)
      · exact same.symm
      · exact absurd ((List.pairwise_cons.mp sortedLeft).1 a later) notBelow

theorem diffOnto_eq (as bs : List UInt16) (out : Array UInt16) (sortedA : as.Pairwise (· < ·))
    (sortedB : bs.Pairwise (· < ·)) :
    (diffOnto as bs out).toList = out.toList ++ as.filter (fun v => v ∉ bs) := by
  induction as generalizing bs out with
  | nil => simp [diffOnto]
  | cons a as ih =>
    obtain ⟨behind, rest⟩ := List.pairwise_cons.mp sortedA
    have sortedLeft : (bs.dropWhile (· < a)).Pairwise (· < ·) :=
      sortedB.sublist (List.dropWhile_sublist _)
    have same : as.filter (fun v => v ∉ bs.dropWhile (· < a)) = as.filter (fun v => v ∉ bs) := by
      apply List.filter_congr
      intro v member
      rw [decide_eq_decide, mem_dropWhile_lt bs a v (UInt16.lt_asymm (behind v member))]
    rw [diffOnto, ih _ _ rest sortedLeft, same]
    by_cases present : a ∈ bs
    · rw [if_pos ((head?_dropWhile_lt bs a sortedB).mpr present),
        List.filter_cons_of_neg (by simpa using present)]
    · rw [if_neg (mt (head?_dropWhile_lt bs a sortedB).mp present),
        List.filter_cons_of_pos (by simpa using present)]
      simp

theorem againstRunsOnto_eq (covered : Bool) (vs : List UInt16) (runs : List Run)
    (out : Array UInt16) (sorted : vs.Pairwise (· < ·)) (canonical : Run.Canonical runs) :
    (againstRunsOnto covered vs runs out).toList =
      out.toList ++ vs.filter (fun v => decide (Run.Covers runs v.toNat) = covered) := by
  induction vs generalizing runs out with
  | nil => simp [againstRunsOnto]
  | cons v vs ih =>
    obtain ⟨behind, rest⟩ := List.pairwise_cons.mp sorted
    have left := canonical.dropWhile (fun r => r.stop ≤ v.toNat)
    have inside : (runs.dropWhile (fun r => r.stop ≤ v.toNat)).head?.any (fun r => r.start ≤ v) =
        decide (Run.Covers runs v.toNat) := by
      rw [Bool.eq_iff_iff, decide_eq_true_eq, Run.covers_iff_head runs canonical]
      simp only [UInt16.le_iff_toNat_le]
    have same : vs.filter (fun u => decide (Run.Covers (runs.dropWhile (fun r => r.stop ≤ v.toNat))
          u.toNat) = covered) =
        vs.filter (fun u => decide (Run.Covers runs u.toNat) = covered) := by
      apply List.filter_congr
      intro u member
      have later := UInt16.lt_iff_toNat_lt.mp (behind u member)
      simp only [Run.covers_dropWhile runs v.toNat u.toNat (by omega)]
    rw [againstRunsOnto]
    rw [inside, ih _ _ rest left, same]
    by_cases kept : decide (Run.Covers runs v.toNat) = covered
    · rw [if_pos kept, List.filter_cons_of_pos (by simpa using kept)]
      simp
    · rw [if_neg kept, List.filter_cons_of_neg (by simpa using kept)]

theorem toList_diff (s t : ArraySet) (formedS : s.WellFormed) (formedT : t.WellFormed) :
    (s.diff t).values.toList = s.values.toList.filter (fun v => v ∉ t.values) := by
  rw [diff, diffOnto_eq _ _ _ formedS.ascending formedT.ascending]
  simp

theorem toList_interRuns (s : ArraySet) (runs : Array Run) (formed : s.WellFormed)
    (canonical : Run.Canonical runs.toList) :
    (s.interRuns runs).values.toList =
      s.values.toList.filter (fun v => Run.Covers runs.toList v.toNat) := by
  rw [interRuns, againstRunsOnto_eq _ _ _ _ formed.ascending canonical]
  simp

theorem toList_diffRuns (s : ArraySet) (runs : Array Run) (formed : s.WellFormed)
    (canonical : Run.Canonical runs.toList) :
    (s.diffRuns runs).values.toList =
      s.values.toList.filter (fun v => ¬ Run.Covers runs.toList v.toNat) := by
  rw [diffRuns, againstRunsOnto_eq _ _ _ _ formed.ascending canonical]
  simp

end Roaring.ArraySet
