import Roaring.Proofs.RunSet.Basic
import Roaring.Proofs.Splice

/-! Changes of a list of runs. Bisection finds the runs that a value or a range meets; they are
replaced by runs with a gap to what stays, so the list stays canonical. -/
namespace Roaring

namespace Run

theorem Canonical.between {xs ys : List Run} {r : Run} (first : Canonical xs)
    (second : Canonical ys) (inside : r.stop ≤ 65536)
    (before : ∀ n, Covers xs n → n + 1 < r.start.toNat) (behind : ∀ n, Covers ys n → r.stop < n)
    (apart : ∀ m n, Covers xs m → Covers ys n → m + 1 < n) : Canonical (xs ++ r :: ys) := by
  apply first.append (second.cons inside behind)
  intro m n early late
  rcases (covers_cons r ys n).mp late with ⟨low, -⟩ | later
  · have := before m early
    omega
  · exact apart m n early later

/-! Runs with their ends moved. -/

theorem stop_until (first last : UInt16) (forwards : first ≤ last) :
    (⟨first, last - first⟩ : Run).stop = last.toNat + 1 := by
  change first.toNat + (last - first).toNat + 1 = last.toNat + 1
  rw [UInt16.toNat_sub_of_le _ _ forwards]
  rw [UInt16.le_iff_toNat_le] at forwards
  omega

theorem toNat_succ (v : UInt16) (inside : v.toNat < 65535) : (v + 1).toNat = v.toNat + 1 := by
  rw [UInt16.toNat_add]
  exact Nat.mod_eq_of_lt (by simp only [UInt16.toNat_one]; omega)

theorem toNat_pred (v : UInt16) (positive : 0 < v.toNat) : (v - 1).toNat = v.toNat - 1 := by
  have least : 1 ≤ v := by
    rw [UInt16.le_iff_toNat_le]
    exact positive
  rw [UInt16.toNat_sub_of_le _ _ least]
  rfl

theorem stop_longer (r : Run) (inside : r.stop < 65536) :
    (⟨r.start, r.length + 1⟩ : Run).stop = r.stop + 1 := by
  change r.start.toNat + (r.length + 1).toNat + 1 = r.stop + 1
  rw [stop] at inside ⊢
  rw [toNat_succ _ (by omega)]
  omega

theorem stop_earlier (r : Run) (positive : 0 < r.start.toNat) (inside : r.stop ≤ 65536) :
    (⟨r.start - 1, r.length + 1⟩ : Run).stop = r.stop := by
  change (r.start - 1).toNat + (r.length + 1).toNat + 1 = r.stop
  rw [stop] at inside ⊢
  rw [toNat_succ _ (by omega), toNat_pred _ positive]
  omega

end Run

namespace RunSet

/-- The runs that end before a value come first; none of the others does. -/
theorem find_spec (s : RunSet) (v : UInt16) (formed : s.WellFormed) :
    ∃ front back, s.runs.toList = front ++ back ∧ front.length = s.find v ∧
      (∀ r ∈ front, r.stop ≤ v.toNat) ∧ ∀ r ∈ back, v.toNat < r.stop := by
  have falling : Search.Falling (fun r : Run => decide (r.stop ≤ v.toNat)) s.runs.toList := by
    apply formed.1.imp
    intro a b gap passes
    have := b.start_lt_stop
    rw [decide_eq_true_eq] at *
    omega
  obtain ⟨front, back, parts, index, before, behind⟩ :=
    (Search.parts_partitionPoint s.runs _ falling).split
  exact ⟨front, back, parts, index, fun r member => by simpa using before r member,
    fun r member => by simpa using behind r member⟩

/-- The first run that does not end before a value decides whether it is present. -/
theorem mem_iff_first {s : RunSet} {v : UInt16} (formed : s.WellFormed) {front back : List Run}
    (parts : s.runs.toList = front ++ back) (before : ∀ r ∈ front, r.stop ≤ v.toNat)
    (behind : ∀ r ∈ back, v.toNat < r.stop) :
    v ∈ s ↔ back.head?.any (fun r => r.start ≤ v) = true := by
  have notEarly : ¬ Run.Covers front v.toNat := by
    rintro ⟨r, member, -, below⟩
    have := before r member
    omega
  rw [mem_def, parts, Run.covers_append, or_iff_right notEarly]
  rw [WellFormed, parts] at formed
  cases back with
  | nil => simp
  | cons r rest =>
    have inside := behind r List.mem_cons_self
    have later : Run.Covers rest v.toNat → r.stop < v.toNat := formed.right.stop_lt v.toNat
    simp only [Run.covers_cons, List.head?_cons, Option.any_some, decide_eq_true_eq,
      UInt16.le_iff_toNat_le]
    constructor
    · rintro (⟨low, -⟩ | covered)
      · exact low
      · have := later covered
        omega
    · exact fun low => Or.inl ⟨low, inside⟩

theorem head?_of_parts {s : RunSet} {front back : List Run} {i : Nat}
    (parts : s.runs.toList = front ++ back) (index : front.length = i) :
    s.runs[i]? = back.head? := by
  subst index
  rw [← Array.getElem?_toList, parts, List.getElem?_append_right (Nat.le_refl _), Nat.sub_self,
    List.head?_eq_getElem?]

theorem contains_iff (s : RunSet) (v : UInt16) (formed : s.WellFormed) :
    s.contains v = true ↔ v ∈ s := by
  obtain ⟨front, back, parts, index, before, behind⟩ := s.find_spec v formed
  rw [mem_iff_first formed parts before behind, contains, head?_of_parts parts index]

theorem previous_of_parts {s : RunSet} {front back : List Run} {i : Nat}
    (parts : s.runs.toList = front ++ back) (index : front.length = i) :
    (if i = 0 then none else s.runs[i - 1]?) = front.getLast? := by
  subst index
  rw [← Array.getElem?_toList, parts, List.getLast?_eq_getElem?]
  split
  · rename_i empty
    simp [List.length_eq_zero_iff.mp empty]
  · rw [List.getElem?_append_left (by omega)]

/-- Runs that give a well-formed set with some values more. -/
def Inserted (s : RunSet) (added : Nat → Prop) (runs : List Run) : Prop :=
  Run.Canonical runs ∧ ∀ n, Run.Covers runs n ↔ added n ∨ Run.Covers s.runs.toList n

theorem inserted_between {s : RunSet} {added : Nat → Prop} {front back : List Run} {r : Run}
    (formed : s.WellFormed) (near : List Run) (parts : s.runs.toList = front ++ near ++ back)
    (inside : r.stop ≤ 65536)
    (covers : ∀ n, r.start.toNat ≤ n ∧ n < r.stop ↔ added n ∨ Run.Covers near n)
    (before : ∀ m n, Run.Covers front m → added n → m + 1 < n)
    (behind : ∀ m n, added m → Run.Covers back n → m + 1 < n) :
    Inserted s added (front ++ r :: back) := by
  rw [WellFormed, parts] at formed
  have nonempty := r.start_lt_stop
  refine ⟨formed.left.left.between formed.right inside ?_ ?_ ?_, ?_⟩
  · intro n early
    rcases (covers r.start.toNat).mp ⟨Nat.le_refl _, nonempty⟩ with here | inNear
    · exact before n _ early here
    · exact formed.left.apart n _ early inNear
  · intro n late
    rcases (covers (r.stop - 1)).mp ⟨by omega, by omega⟩ with here | inNear
    · have := behind _ n here late
      omega
    · have := formed.apart _ n ((Run.covers_append _ _ _).mpr (Or.inr inNear)) late
      omega
  · intro m n early late
    exact formed.apart m n ((Run.covers_append _ _ _).mpr (Or.inl early)) late
  · intro n
    rw [parts]
    simp only [Run.covers_append, Run.covers_cons, covers n]
    tauto

/-- The last run before a value ends right there, or there is a gap. -/
theorem last_before {front : List Run} (v : UInt16) (canonical : Run.Canonical front)
    (before : ∀ r ∈ front, r.stop ≤ v.toNat) :
    (∃ front' p, front = front' ++ [p] ∧ p.stop = v.toNat ∧
        front.getLast?.filter (fun r => r.stop == v.toNat) = some p) ∨
      (front.getLast?.filter (fun r => r.stop == v.toNat) = none ∧
        ∀ m n, Run.Covers front m → n = v.toNat → m + 1 < n) := by
  rcases List.eq_nil_or_concat' front with rfl | ⟨front', p, rfl⟩
  · exact Or.inr ⟨rfl, by simp⟩
  · have stops := before p (by simp)
    rw [List.getLast?_concat]
    by_cases touches : p.stop = v.toNat
    · exact Or.inl ⟨front', p, rfl, touches, by simp [touches]⟩
    · refine Or.inr ⟨by simp [touches], ?_⟩
      intro n m covered here
      have nonempty := p.start_lt_stop
      rcases (Run.covers_append _ _ _).mp covered with early | last
      · have := canonical.apart n _ early (Run.covers_start (List.mem_singleton.mpr rfl))
        omega
      · simp only [Run.covers_cons, Run.covers_nil, or_false] at last
        omega

/-- The first run behind a value starts right there, or there is a gap. -/
theorem first_behind {back : List Run} (v : UInt16) (canonical : Run.Canonical back)
    (behind : ∀ r ∈ back.head?, v.toNat < r.start.toNat) :
    (∃ q back', back = q :: back' ∧ q.start.toNat = v.toNat + 1 ∧
        back.head?.filter (fun r => r.start.toNat == v.toNat + 1) = some q) ∨
      (back.head?.filter (fun r => r.start.toNat == v.toNat + 1) = none ∧
        ∀ m n, m = v.toNat → Run.Covers back n → m + 1 < n) := by
  cases back with
  | nil => exact Or.inr ⟨rfl, by simp⟩
  | cons q back' =>
    have starts := behind q rfl
    rw [List.head?_cons]
    by_cases touches : q.start.toNat = v.toNat + 1
    · exact Or.inl ⟨q, back', rfl, touches, by simp [touches]⟩
    · refine Or.inr ⟨by simp [touches], ?_⟩
      intro m n here covered
      have nonempty := q.start_lt_stop
      rcases (Run.covers_cons _ _ _).mp covered with first | later
      · omega
      · have := canonical.stop_lt n later
        omega

/-! The four ways for a value to come in: between two runs that it joins, behind a run, before a run,
or by itself. -/

theorem inserted_joining {s : RunSet} {v : UInt16} {front back : List Run} {p q : Run}
    (formed : s.WellFormed) (parts : s.runs.toList = front ++ p :: q :: back)
    (ends : p.stop = v.toNat) (starts : q.start.toNat = v.toNat + 1) :
    Inserted s (· = v.toNat) (front ++ ⟨p.start, q.last - p.start⟩ :: back) := by
  have canonical := formed
  rw [WellFormed, parts] at canonical
  have insideQ := canonical.right.tail.stop_le
  have nonemptyP := p.start_lt_stop
  have nonemptyQ := q.start_lt_stop
  have lastQ := Run.toNat_last q insideQ
  have stops := Run.stop_until p.start q.last (by rw [UInt16.le_iff_toNat_le]; omega)
  refine inserted_between formed [p, q] (by rw [parts]; simp) (by omega) ?_ ?_ ?_
  · intro n
    simp only [stops, Run.covers_cons, Run.covers_nil, or_false]
    omega
  · intro m n early here
    have := canonical.apart m _ early (Run.covers_start List.mem_cons_self)
    omega
  · intro m n here late
    have := canonical.right.tail.stop_lt n late
    omega

theorem inserted_behind {s : RunSet} {v : UInt16} {front back : List Run} {p : Run}
    (formed : s.WellFormed) (parts : s.runs.toList = front ++ p :: back)
    (ends : p.stop = v.toNat) (behind : ∀ m n, m = v.toNat → Run.Covers back n → m + 1 < n) :
    Inserted s (· = v.toNat) (front ++ ⟨p.start, p.length + 1⟩ :: back) := by
  have canonical := formed
  rw [WellFormed, parts] at canonical
  have low := v.toNat_lt
  have nonempty := p.start_lt_stop
  have stops := p.stop_longer (by omega)
  refine inserted_between formed [p] (by rw [parts]; simp) (by omega) ?_ ?_ behind
  · intro n
    simp only [stops, Run.covers_cons, Run.covers_nil, or_false]
    omega
  · intro m n early here
    have := canonical.apart m _ early (Run.covers_start List.mem_cons_self)
    omega

theorem inserted_before {s : RunSet} {v : UInt16} {front back : List Run} {q : Run}
    (formed : s.WellFormed) (parts : s.runs.toList = front ++ q :: back)
    (starts : q.start.toNat = v.toNat + 1)
    (before : ∀ m n, Run.Covers front m → n = v.toNat → m + 1 < n) :
    Inserted s (· = v.toNat) (front ++ ⟨q.start - 1, q.length + 1⟩ :: back) := by
  have canonical := formed
  rw [WellFormed, parts] at canonical
  have inside := canonical.right.stop_le
  have nonempty := q.start_lt_stop
  have startsNew := Run.toNat_pred q.start (by omega)
  have stops := q.stop_earlier (by omega) inside
  refine inserted_between formed [q] (by rw [parts]; simp) (by omega) ?_ before ?_
  · intro n
    simp only [startsNew, stops, Run.covers_cons, Run.covers_nil, or_false]
    omega
  · intro m n here late
    have := canonical.right.stop_lt n late
    omega

theorem inserted_alone {s : RunSet} {v : UInt16} {front back : List Run} (formed : s.WellFormed)
    (parts : s.runs.toList = front ++ back)
    (before : ∀ m n, Run.Covers front m → n = v.toNat → m + 1 < n)
    (behind : ∀ m n, m = v.toNat → Run.Covers back n → m + 1 < n) :
    Inserted s (· = v.toNat) (front ++ .point v :: back) := by
  have low := v.toNat_lt
  refine inserted_between formed [] (by rw [parts, List.append_nil]) ?_ ?_ before behind
  · rw [Run.stop_point]
    omega
  · intro n
    rw [Run.start_point, Run.stop_point, Run.covers_nil, or_false]
    omega

theorem insert_absent (s : RunSet) (v : UInt16) (formed : s.WellFormed) (absent : v ∉ s) :
    Inserted s (· = v.toNat) (s.insert v).1.runs.toList ∧ (s.insert v).2 = true := by
  obtain ⟨front, back, parts, index, before, behind⟩ := s.find_spec v formed
  have past := mem_iff_first formed parts before behind
  have canonical := formed
  rw [WellFormed, parts] at canonical
  have above (r : Run) (first : r ∈ back.head?) : v.toNat < r.start.toNat := by
    by_contra within
    apply absent
    rw [past, Option.mem_def.mp first]
    simpa [UInt16.le_iff_toNat_le] using within
  simp only [insert]
  rw [head?_of_parts parts index, previous_of_parts parts index]
  rw [if_neg (fun found => absent (past.mpr found))]
  rcases last_before v canonical.left before with ⟨front', p, rfl, endP, foundP⟩ | ⟨noneP, gapP⟩
  · have startP : (s.find v) - 1 = front'.length := by
      rw [← index, List.length_append, List.length_singleton]
      omega
    rw [← List.append_cons] at parts
    have replaced := toList_setIfInBounds_of_parts parts startP.symm
    rcases first_behind v canonical.right above with ⟨q, back', rfl, startQ, foundQ⟩ | ⟨noneQ, gapQ⟩
    · rw [foundP, foundQ]
      refine ⟨?_, rfl⟩
      have joined := replaced ⟨p.start, q.last - p.start⟩
      rw [List.append_cons] at joined
      simp only
      rw [toList_eraseIdx_of_parts joined (by rw [← index]; simp), ← List.append_cons]
      exact inserted_joining formed parts endP startQ
    · rw [foundP, noneQ]
      refine ⟨?_, rfl⟩
      simp only
      rw [replaced]
      exact inserted_behind formed parts endP gapQ
  · rcases first_behind v canonical.right above with ⟨q, back', rfl, startQ, foundQ⟩ | ⟨noneQ, gapQ⟩
    · rw [noneP, foundQ]
      refine ⟨?_, rfl⟩
      simp only
      rw [toList_setIfInBounds_of_parts parts index]
      exact inserted_before formed parts startQ gapP
    · rw [noneP, noneQ]
      refine ⟨?_, rfl⟩
      simp only
      rw [toList_insertIdx_of_parts parts index]
      exact inserted_alone formed parts gapP gapQ

theorem insert_of_mem (s : RunSet) (v : UInt16) (formed : s.WellFormed) (member : v ∈ s) :
    s.insert v = (s, false) := by
  obtain ⟨front, back, parts, index, before, behind⟩ := s.find_spec v formed
  have found := (mem_iff_first formed parts before behind).mp member
  simp only [insert]
  rw [head?_of_parts parts index, if_pos found]

theorem insert_spec (s : RunSet) (v : UInt16) (formed : s.WellFormed) :
    (s.insert v).1.WellFormed ∧ (∀ u, u ∈ (s.insert v).1 ↔ u = v ∨ u ∈ s) ∧
      ((s.insert v).2 = true ↔ v ∉ s) := by
  by_cases member : v ∈ s
  · rw [s.insert_of_mem v formed member]
    refine ⟨formed, fun u => ?_, by simp [member]⟩
    constructor
    · exact Or.inr
    · rintro (rfl | found)
      · exact member
      · exact found
  · obtain ⟨⟨canonical, covers⟩, added⟩ := s.insert_absent v formed member
    refine ⟨canonical, fun u => ?_, by simp [added, member]⟩
    exact (covers u.toNat).trans (or_congr_left UInt16.toNat_inj)

/-- Runs that give a well-formed set with some values less. -/
def Erased (s : RunSet) (removed : Nat → Prop) (runs : List Run) : Prop :=
  Run.Canonical runs ∧ ∀ n, Run.Covers runs n ↔ ¬ removed n ∧ Run.Covers s.runs.toList n

theorem erased_between {s : RunSet} {removed : Nat → Prop} {front back : List Run}
    (formed : s.WellFormed) (near : List Run) (parts : s.runs.toList = front ++ near ++ back)
    (left : List Run) (canonical : Run.Canonical left)
    (covers : ∀ n, Run.Covers left n ↔ ¬ removed n ∧ Run.Covers near n)
    (outside : ∀ n, Run.Covers front n ∨ Run.Covers back n → ¬ removed n) :
    Erased s removed (front ++ left ++ back) := by
  rw [WellFormed, parts] at formed
  refine ⟨(formed.left.left.append canonical ?_).append formed.right ?_, ?_⟩
  · intro m n coveredM coveredN
    exact formed.left.apart m n coveredM ((covers n).mp coveredN).2
  · intro m n coveredM coveredN
    apply formed.apart m n _ coveredN
    rw [Run.covers_append] at coveredM ⊢
    exact coveredM.imp_right fun inLeft => ((covers m).mp inLeft).2
  · intro n
    rw [parts]
    simp only [Run.covers_append, covers n]
    have := outside n
    tauto

theorem erased_from_run {s : RunSet} {v : UInt16} {front back : List Run} {r : Run}
    (formed : s.WellFormed) (parts : s.runs.toList = front ++ r :: back)
    (inside : r.start.toNat ≤ v.toNat ∧ v.toNat < r.stop) (left : List Run)
    (canonical : Run.Canonical left)
    (covers : ∀ n, Run.Covers left n ↔ n ≠ v.toNat ∧ r.start.toNat ≤ n ∧ n < r.stop) :
    Erased s (· = v.toNat) (front ++ left ++ back) := by
  apply erased_between formed [r] (by rw [parts]; simp) left canonical
  · simpa using covers
  · rintro n (early | late) rfl
    · rw [WellFormed, parts] at formed
      have := formed.apart _ _ early (Run.covers_start List.mem_cons_self)
      omega
    · rw [WellFormed, parts] at formed
      have := formed.right.stop_lt _ late
      omega

/-! What is left of the run of a value that goes: nothing, all but its first or its last value, or
the two sides of the value. -/

section Erased

variable {s : RunSet} {v : UInt16} {front back : List Run} {r : Run}

theorem erased_only (formed : s.WellFormed) (parts : s.runs.toList = front ++ r :: back)
    (inside : r.start.toNat ≤ v.toNat ∧ v.toNat < r.stop) (single : r.length.toNat = 0) :
    Erased s (· = v.toNat) (front ++ back) := by
  have nothing := erased_from_run formed parts inside [] Run.canonical_nil (by
    intro n
    rw [Run.covers_nil, false_iff]
    simp only [Run.stop] at inside ⊢
    omega)
  rwa [List.append_nil] at nothing

theorem erased_first (formed : s.WellFormed) (parts : s.runs.toList = front ++ r :: back)
    (inside : r.stop ≤ 65536) (several : 0 < r.length.toNat) (first : v = r.start) :
    Erased s (· = v.toNat) (front ++ ⟨r.start + 1, r.length - 1⟩ :: back) := by
  subst first
  have stops : r.stop = r.start.toNat + r.length.toNat + 1 := rfl
  have shorter := Run.toNat_pred r.length several
  have starts := Run.toNat_succ r.start (by omega)
  have stopsNew : (⟨r.start + 1, r.length - 1⟩ : Run).stop = r.stop := by
    change (r.start + 1).toNat + (r.length - 1).toNat + 1 = r.stop
    omega
  rw [List.append_cons]
  apply erased_from_run formed parts ⟨Nat.le_refl _, r.start_lt_stop⟩
  · exact Run.canonical_singleton _ (by omega)
  · intro n
    simp only [starts, stopsNew, Run.covers_cons, Run.covers_nil, or_false]
    omega

theorem erased_last (formed : s.WellFormed) (parts : s.runs.toList = front ++ r :: back)
    (inside : r.stop ≤ 65536) (several : 0 < r.length.toNat) (last : v = r.last) :
    Erased s (· = v.toNat) (front ++ ⟨r.start, r.length - 1⟩ :: back) := by
  subst last
  have stops : r.stop = r.start.toNat + r.length.toNat + 1 := rfl
  have lastNat := Run.toNat_last r inside
  have shorter := Run.toNat_pred r.length several
  have stopsNew : (⟨r.start, r.length - 1⟩ : Run).stop = r.stop - 1 := by
    change r.start.toNat + (r.length - 1).toNat + 1 = r.stop - 1
    omega
  rw [List.append_cons]
  apply erased_from_run formed parts ⟨by omega, by omega⟩
  · exact Run.canonical_singleton _ (by omega)
  · intro n
    simp only [stopsNew, Run.covers_cons, Run.covers_nil, or_false]
    omega

theorem erased_inner (formed : s.WellFormed) (parts : s.runs.toList = front ++ r :: back)
    (inside : r.stop ≤ 65536) (low : r.start.toNat < v.toNat) (high : v.toNat < r.last.toNat) :
    Erased s (· = v.toNat)
      (front ++ ⟨r.start, v - 1 - r.start⟩ :: ⟨v + 1, r.last - (v + 1)⟩ :: back) := by
  have lastNat := Run.toNat_last r inside
  have predecessor := Run.toNat_pred v (by omega)
  have successor := Run.toNat_succ v (by omega)
  have stopsLeft := Run.stop_until r.start (v - 1) (by rw [UInt16.le_iff_toNat_le]; omega)
  have stopsRight := Run.stop_until (v + 1) r.last (by rw [UInt16.le_iff_toNat_le]; omega)
  rw [List.append_cons, List.append_cons, List.append_assoc front]
  apply erased_from_run formed parts ⟨by omega, by omega⟩
  · apply Run.Canonical.append
    · exact Run.canonical_singleton _ (by omega)
    · exact Run.canonical_singleton _ (by omega)
    · intro m n left right
      simp only [stopsLeft, Run.covers_cons, Run.covers_nil, or_false] at left
      simp only [successor, stopsRight, Run.covers_cons, Run.covers_nil, or_false] at right
      omega
  · intro n
    simp only [stopsLeft, stopsRight, successor, Run.covers_append, Run.covers_cons,
      Run.covers_nil, or_false]
    omega

end Erased

theorem erase_present (s : RunSet) (v : UInt16) (formed : s.WellFormed) (member : v ∈ s) :
    Erased s (· = v.toNat) (s.erase v).1.runs.toList ∧ (s.erase v).2 = true := by
  obtain ⟨front, back, parts, index, before, behind⟩ := s.find_spec v formed
  have found := (mem_iff_first formed parts before behind).mp member
  simp only [erase]
  rw [head?_of_parts parts index]
  cases back with
  | nil => simp at found
  | cons r rest =>
    have low : r.start ≤ v := by simpa using found
    have lowNat := UInt16.le_iff_toNat_le.mp low
    have high := behind r List.mem_cons_self
    have canonical := formed
    rw [WellFormed, parts] at canonical
    have bounded := canonical.right.stop_le
    have lastNat := Run.toNat_last r bounded
    have filtered : (some r).filter (fun r => decide (r.start ≤ v)) = some r := by simp [low]
    rw [List.head?_cons, filtered]
    simp only
    split
    · rename_i single
      refine ⟨?_, rfl⟩
      rw [toList_eraseIdx_of_parts parts index]
      exact erased_only formed parts ⟨lowNat, high⟩ (congrArg UInt16.toNat single)
    · rename_i more
      have several : 0 < r.length.toNat := by
        rw [Nat.pos_iff_ne_zero]
        exact fun zero => more (UInt16.toNat_inj.mp zero)
      split
      · rename_i first
        refine ⟨?_, rfl⟩
        simp only
        rw [toList_setIfInBounds_of_parts parts index]
        exact erased_first formed parts bounded several first
      · rename_i notFirst
        have notFirstNat : v.toNat ≠ r.start.toNat := fun same =>
          notFirst (UInt16.toNat_inj.mp same)
        split
        · rename_i last
          refine ⟨?_, rfl⟩
          simp only
          rw [toList_setIfInBounds_of_parts parts index]
          exact erased_last formed parts bounded several last
        · rename_i notLast
          have notLastNat : v.toNat ≠ r.last.toNat := fun same =>
            notLast (UInt16.toNat_inj.mp same)
          refine ⟨?_, rfl⟩
          have replaced := toList_setIfInBounds_of_parts parts index ⟨r.start, v - 1 - r.start⟩
          rw [List.append_cons] at replaced
          simp only
          rw [toList_insertIdx_of_parts replaced (by simp [index]), ← List.append_cons]
          exact erased_inner formed parts bounded (by omega) (by omega)

theorem erase_spec (s : RunSet) (v : UInt16) (formed : s.WellFormed) :
    (s.erase v).1.WellFormed ∧ (∀ u, u ∈ (s.erase v).1 ↔ u ≠ v ∧ u ∈ s) ∧
      ((s.erase v).2 = true ↔ v ∈ s) := by
  by_cases member : v ∈ s
  · obtain ⟨⟨canonical, covers⟩, removed⟩ := s.erase_present v formed member
    refine ⟨canonical, fun u => ?_, by simp [removed, member]⟩
    exact (covers u.toNat).trans (and_congr_left fun _ => not_congr UInt16.toNat_inj)
  · obtain ⟨front, back, parts, index, before, behind⟩ := s.find_spec v formed
    have past := mem_iff_first formed parts before behind
    have same : s.erase v = (s, false) := by
      have nothing : back.head?.filter (fun r => decide (r.start ≤ v)) = none := by
        rw [Option.filter_eq_none_iff]
        intro r first starts
        apply member
        rw [past, first]
        exact starts
      simp only [erase]
      rw [head?_of_parts parts index, nothing]
    rw [same]
    refine ⟨formed, fun u => ?_, by simp [member]⟩
    constructor
    · intro found
      exact ⟨fun here => member (here ▸ found), found⟩
    · exact And.right

/-! Appending. -/

theorem ext {s t : RunSet} (first : s.WellFormed) (second : t.WellFormed)
    (same : ∀ v, v ∈ s ↔ v ∈ t) : s = t := by
  obtain ⟨runs⟩ := s
  obtain ⟨others⟩ := t
  congr 1
  apply Array.toList_inj.mp
  apply Run.Canonical.ext first second
  intro n
  rcases Nat.lt_or_ge n 65536 with inside | outside
  · have value := same n.toUInt16
    rw [mem_def, mem_def] at value
    simpa [Nat.mod_eq_of_lt inside] using value
  · constructor
    · intro covered
      have := Run.Canonical.lt_of_covers first n covered
      omega
    · intro covered
      have := Run.Canonical.lt_of_covers second n covered
      omega

/-- The last run of a well-formed set ends with its greatest value. -/
theorem last_spec (s : RunSet) (formed : s.WellFormed) (r : Run) (top : s.runs.back? = some r) :
    (∃ front, s.runs.toList = front ++ [r] ∧ front.length = s.runs.size - 1) ∧ r.last ∈ s ∧
      r.last.toNat = r.stop - 1 ∧ ∀ u ∈ s, u ≤ r.last := by
  rw [← Array.getLast?_toList] at top
  obtain ⟨front, parts⟩ := List.getLast?_eq_some_iff.mp top
  have canonical := formed
  rw [WellFormed, parts] at canonical
  have lastNat := Run.toNat_last r (canonical.2 r (by simp))
  refine ⟨⟨front, parts, ?_⟩, ?_, lastNat, ?_⟩
  · rw [← Array.length_toList, parts]
    simp
  · rw [mem_def, lastNat]
    exact Run.covers_last (by simp [parts])
  · intro u member
    rw [mem_def, parts] at member
    rw [UInt16.le_iff_toNat_le, lastNat]
    rcases (Run.covers_append _ _ _).mp member with early | here
    · have := canonical.apart _ _ early (Run.covers_start (List.mem_singleton.mpr rfl))
      have := r.start_lt_stop
      omega
    · simp only [Run.covers_cons, Run.covers_nil, or_false] at here
      omega

theorem push_above (s : RunSet) (v : UInt16) (formed : s.WellFormed) (runs : Array Run)
    (inserted : Inserted s (· = v.toNat) runs.toList) : (⟨runs⟩ : RunSet) = (s.insert v).1 := by
  obtain ⟨formedInsert, memInsert, -⟩ := s.insert_spec v formed
  apply ext inserted.1 formedInsert
  intro u
  rw [memInsert, mem_def, inserted.2]
  exact or_congr_left UInt16.toNat_inj

theorem push_eq (s : RunSet) (v : UInt16) (formed : s.WellFormed) (last : ∀ u ∈ s, u ≤ v) :
    s.push v = .ok (s.insert v).1 := by
  rw [push]
  cases top : s.runs.back? with
  | none =>
    have none : s.runs.toList = [] := by simpa using top
    apply congrArg Except.ok
    apply s.push_above v formed
    have alone := inserted_alone (v := v) formed (List.append_nil _).symm (by simp [none]) (by simp)
    rwa [none] at alone
  | some r =>
    obtain ⟨⟨front, parts, index⟩, member, lastNat, -⟩ := s.last_spec formed r top
    have below := last r.last member
    have belowNat := UInt16.le_iff_toNat_le.mp below
    have nonempty := r.start_lt_stop
    simp only
    rw [if_neg (UInt16.not_lt.mpr below)]
    split
    · rename_i same
      rw [same, s.insert_of_mem r.last formed member]
    · rename_i other
      have more : v.toNat ≠ r.last.toNat := fun same => other (UInt16.toNat_inj.mp same)
      split
      · rename_i touches
        apply congrArg Except.ok
        apply s.push_above v formed
        rw [toList_setIfInBounds_of_parts parts index]
        exact inserted_behind formed parts touches.symm (by simp)
      · rename_i apart
        apply congrArg Except.ok
        apply s.push_above v formed
        rw [Array.toList_push]
        refine inserted_alone formed (List.append_nil _).symm ?_ (by simp)
        intro m n early here
        rw [WellFormed, parts] at formed
        rw [parts, Run.covers_append, Run.covers_cons] at early
        rcases early with inFront | ⟨-, inLast⟩ | later
        · have := formed.apart m _ inFront (Run.covers_start List.mem_cons_self)
          omega
        · omega
        · exact absurd later (by simp)

theorem push_error (s : RunSet) (v m : UInt16) (top : s.max? = some m) (below : v < m) :
    s.push v = .error (.pushBelowLast v m) := by
  rw [max?, Option.map_eq_some_iff] at top
  obtain ⟨r, top, rfl⟩ := top
  rw [push, top]
  exact if_pos below

/-! Ranges. -/

theorem falling_stops {runs : List Run} (canonical : Run.Canonical runs) (test : Nat → Bool)
    (falling : ∀ m n, m ≤ n → test n = true → test m = true) :
    Search.Falling (fun r : Run => test r.stop) runs := by
  apply canonical.1.imp
  intro a b gap passes
  have := b.start_lt_stop
  exact falling _ _ (by omega) passes

theorem falling_starts {runs : List Run} (canonical : Run.Canonical runs) (test : Nat → Bool)
    (falling : ∀ m n, m ≤ n → test n = true → test m = true) :
    Search.Falling (fun r : Run => test r.start.toNat) runs := by
  apply canonical.1.imp
  intro a b gap passes
  have := a.start_lt_stop
  exact falling _ _ (by omega) passes

/-- Bisection by the ends and by the starts of the runs parts them in three. -/
theorem window_spec (s : RunSet) (formed : s.WellFormed) (ended started : Nat → Bool)
    (fallingStops : ∀ m n, m ≤ n → ended n = true → ended m = true)
    (fallingStarts : ∀ m n, m ≤ n → started n = true → started m = true)
    (earlier : ∀ m n, m < n → ended n = true → started m = true) :
    ∃ front middle back, s.runs.toList = front ++ middle ++ back ∧
      front.length = Search.partitionPoint s.runs (fun r => ended r.stop) ∧
      Search.partitionPoint s.runs (fun r => ended r.stop) + middle.length =
        Search.partitionPoint s.runs (fun r => started r.start.toNat) ∧
      (∀ r ∈ front, ended r.stop = true) ∧
      (∀ r ∈ middle, ended r.stop = false ∧ started r.start.toNat = true) ∧
      ∀ r ∈ back, started r.start.toNat = false := by
  have low := Search.parts_partitionPoint s.runs (fun r => ended r.stop)
    (falling_stops formed ended fallingStops)
  have high := Search.parts_partitionPoint s.runs (fun r => started r.start.toNat)
    (falling_starts formed started fallingStarts)
  exact low.window high fun r _ => earlier _ _ r.start_lt_stop

/-- The runs in the middle of three parts span from the start of their first to the end of their
last. -/
theorem span_of_ends {runs : List Run} (canonical : Run.Canonical runs) (first last : Run)
    (head : runs.head? = some first) (tail : runs.getLast? = some last) (n : Nat)
    (covered : Run.Covers runs n) : first.start.toNat ≤ n ∧ n < last.stop := by
  obtain ⟨rest, fromHead⟩ := List.head?_eq_some_iff.mp head
  obtain ⟨front, toLast⟩ := List.getLast?_eq_some_iff.mp tail
  constructor
  · have formed := canonical
    rw [fromHead] at formed covered
    rcases (Run.covers_cons _ _ _).mp covered with ⟨low, -⟩ | later
    · exact low
    · have := formed.stop_lt n later
      have := first.start_lt_stop
      omega
  · have formed := canonical
    rw [toLast] at formed covered
    rcases (Run.covers_append _ _ _).mp covered with early | here
    · have := formed.apart n _ early (Run.covers_start (List.mem_singleton.mpr rfl))
      have := last.start_lt_stop
      omega
    · simp only [Run.covers_cons, Run.covers_nil, or_false] at here
      exact here.2

/-- A range and the runs that meet or touch it make up one span. -/
theorem joined_spec (range : Span) (middle : List Run) (canonical : Run.Canonical middle)
    (forwards : range.start < range.stop) (inside : range.stop ≤ 65536)
    (meets : ∀ r ∈ middle, range.start ≤ r.stop ∧ r.start.toNat ≤ range.stop) (joined : Span)
    (joins : joined = ⟨middle.head?.elim range.start (fun r => min range.start r.start.toNat),
      middle.getLast?.elim range.stop (fun r => max range.stop r.stop)⟩) :
    joined.start < joined.stop ∧ joined.stop ≤ 65536 ∧
      ∀ n, joined.start ≤ n ∧ n < joined.stop ↔ n ∈ range ∨ Run.Covers middle n := by
  cases head : middle.head? with
  | none =>
    have nil := List.head?_eq_none_iff.mp head
    subst joins nil
    refine ⟨forwards, inside, fun n => ?_⟩
    simp [Span.mem_def]
  | some first =>
    cases tail : middle.getLast? with
    | none =>
      rw [List.getLast?_eq_none_iff.mp tail] at head
      contradiction
    | some last =>
      rw [head, tail, Option.elim_some, Option.elim_some] at joins
      subst joins
      have memberFirst := List.mem_of_mem_head? head
      have memberLast := List.mem_of_mem_getLast? tail
      have meetsFirst := meets first memberFirst
      have meetsLast := meets last memberLast
      have bounded := canonical.2 last memberLast
      refine ⟨by simp only; omega, by simp only; omega, fun n => ?_⟩
      simp only [Span.mem_def]
      constructor
      · intro within
        rcases Nat.lt_or_ge n range.start with low | high
        · exact Or.inr ⟨first, memberFirst, by omega, by omega⟩
        · rcases Nat.lt_or_ge n range.stop with early | late
          · exact Or.inl ⟨high, early⟩
          · exact Or.inr ⟨last, memberLast, by omega, by omega⟩
      · rintro (within | covered)
        · omega
        · have := span_of_ends canonical first last head tail n covered
          omega

theorem insertRange_spec (s : RunSet) (range : Span) (formed : s.WellFormed)
    (inside : range.stop ≤ 65536) :
    ∃ t, s.insertRange range = .ok t ∧ t.WellFormed ∧
      ∀ v, v ∈ t ↔ v ∈ s ∨ v.toNat ∈ range := by
  rw [insertRange]
  split
  · rename_i nothing
    have none := range.isEmpty_iff.mp nothing
    exact ⟨s, rfl, formed, fun v => by simp [none]⟩
  · rename_i something
    have forwards : range.start < range.stop := by simpa [Span.isEmpty] using something
    obtain ⟨front, middle, back, parts, indexLow, indexHigh, before, between, behind⟩ :=
      s.window_spec formed (· < range.start) (· ≤ range.stop)
        (by simp only [decide_eq_true_eq]; omega) (by simp only [decide_eq_true_eq]; omega)
        (by simp only [decide_eq_true_eq]; omega)
    obtain ⟨headEq, tailEq⟩ := ends_of_window parts indexLow indexHigh
    generalize Search.partitionPoint s.runs (fun r => decide (r.stop < range.start)) = lo at *
    generalize Search.partitionPoint s.runs (fun r => decide (r.start.toNat ≤ range.stop)) = hi at *
    have canonical := formed
    rw [WellFormed, parts] at canonical
    simp only
    rw [if_neg (by omega), headEq, tailEq]
    generalize joins : (⟨middle.head?.elim range.start (fun r => min range.start r.start.toNat),
      middle.getLast?.elim range.stop (fun r => max range.stop r.stop)⟩ : Span) = joined
    obtain ⟨nonempty, bounded, covers⟩ := joined_spec range middle canonical.left.right forwards
      inside (fun r member => by simpa using between r member) joined joins.symm
    have starts := Run.start_ofSpan joined (by omega)
    have stops := Run.stop_ofSpan joined nonempty bounded
    have inserted : Inserted s (· ∈ range) (front ++ Run.ofSpan joined :: back) := by
      refine inserted_between formed middle parts (by omega) ?_ ?_ ?_
      · rw [starts, stops]
        exact covers
      · rintro m n ⟨r, member, -, below⟩ new
        have := before r member
        rw [Span.mem_def] at new
        rw [decide_eq_true_eq] at this
        omega
      · rintro m n new ⟨r, member, above, -⟩
        have := behind r member
        rw [Span.mem_def] at new
        rw [decide_eq_false_iff_not] at this
        omega
    have spliced := toList_splice parts indexLow indexHigh #[Run.ofSpan joined]
    refine ⟨_, rfl, ?_, ?_⟩
    · rw [WellFormed, spliced, List.append_assoc]
      exact inserted.1
    · intro v
      rw [mem_def, spliced, List.append_assoc, mem_def, or_comm]
      exact inserted.2 v.toNat

theorem toList_piece (start stop : Nat) :
    (if start < stop then #[Run.ofSpan ⟨start, stop⟩] else #[]).toList = Run.piece start stop := by
  rw [Run.piece]
  split <;> rfl

/-- What a range leaves of the runs that it meets is at their two ends. -/
theorem cut_spec (range : Span) (middle : List Run) (canonical : Run.Canonical middle)
    (meets : ∀ r ∈ middle, range.start < r.stop ∧ r.start.toNat < range.stop) (first last : Run)
    (head : middle.head? = some first) (tail : middle.getLast? = some last)
    (forwards : range.start < range.stop) :
    Run.Canonical (Run.piece first.start.toNat range.start ++ Run.piece range.stop last.stop) ∧
      ∀ n, Run.Covers (Run.piece first.start.toNat range.start ++ Run.piece range.stop last.stop) n ↔
        ¬ n ∈ range ∧ Run.Covers middle n := by
  have memberFirst := List.mem_of_mem_head? head
  have memberLast := List.mem_of_mem_getLast? tail
  have meetsFirst := meets first memberFirst
  have boundedFirst := canonical.2 first memberFirst
  have boundedLast := canonical.2 last memberLast
  constructor
  · apply (Run.canonical_piece _ _ (by omega)).append (Run.canonical_piece _ _ boundedLast)
    intro m n left right
    rw [Run.covers_piece _ _ _ (by omega)] at left
    rw [Run.covers_piece _ _ _ boundedLast] at right
    omega
  · intro n
    rw [Run.covers_append, Run.covers_piece _ _ _ (by omega), Run.covers_piece _ _ _ boundedLast,
      Span.mem_def]
    constructor
    · rintro (left | right)
      · exact ⟨by omega, first, memberFirst, by omega, by omega⟩
      · have meetsLast := meets last memberLast
        exact ⟨by omega, last, memberLast, by omega, by omega⟩
    · rintro ⟨outside, covered⟩
      have := span_of_ends canonical first last head tail n covered
      omega

theorem eraseRange_spec (s : RunSet) (range : Span) (formed : s.WellFormed) :
    (s.eraseRange range).WellFormed ∧
      ∀ v, v ∈ s.eraseRange range ↔ v ∈ s ∧ v.toNat ∉ range := by
  rw [eraseRange]
  split
  · rename_i nothing
    have none := range.isEmpty_iff.mp nothing
    exact ⟨formed, fun v => by simp [none]⟩
  · rename_i something
    have forwards : range.start < range.stop := by simpa [Span.isEmpty] using something
    obtain ⟨front, middle, back, parts, indexLow, indexHigh, before, between, behind⟩ :=
      s.window_spec formed (· ≤ range.start) (· < range.stop)
        (by simp only [decide_eq_true_eq]; omega) (by simp only [decide_eq_true_eq]; omega)
        (by simp only [decide_eq_true_eq]; omega)
    obtain ⟨headEq, tailEq⟩ := ends_of_window parts indexLow indexHigh
    generalize Search.partitionPoint s.runs (fun r => decide (r.stop ≤ range.start)) = lo at *
    generalize Search.partitionPoint s.runs (fun r => decide (r.start.toNat < range.stop)) = hi at *
    have canonical := formed
    rw [WellFormed, parts] at canonical
    have outside (n : Nat) (covered : Run.Covers front n ∨ Run.Covers back n) : n ∉ range := by
      rw [Span.mem_def]
      rcases covered with ⟨r, member, -, below⟩ | ⟨r, member, above, -⟩
      · have := before r member
        rw [decide_eq_true_eq] at this
        omega
      · have := behind r member
        rw [decide_eq_false_iff_not] at this
        omega
    simp only
    split
    · rename_i unmet
      have none : middle = [] := List.eq_nil_of_length_eq_zero (by omega)
      refine ⟨formed, fun v => ?_⟩
      rw [mem_def, parts, none, List.append_nil, Run.covers_append]
      exact (and_iff_left_of_imp (outside v.toNat)).symm
    · rename_i met
      rw [if_pos (by omega)] at headEq tailEq
      rw [headEq, tailEq]
      cases head : middle.head? with
      | none =>
        rw [List.head?_eq_none_iff.mp head, List.length_nil] at indexHigh
        omega
      | some first =>
        cases tail : middle.getLast? with
        | none =>
          rw [List.getLast?_eq_none_iff.mp tail] at head
          contradiction
        | some last =>
          obtain ⟨kept, covers⟩ := cut_spec range middle canonical.left.right
            (fun r member => by simpa using between r member) first last head tail forwards
          have erased : Erased s (· ∈ range) _ :=
            erased_between formed middle parts _ kept covers outside
          simp only
          have spliced := toList_splice parts indexLow indexHigh
            ((if first.start.toNat < range.start then
                #[Run.ofSpan ⟨first.start.toNat, range.start⟩] else #[]) ++
              (if range.stop < last.stop then #[Run.ofSpan ⟨range.stop, last.stop⟩] else #[]))
          rw [Array.toList_append, toList_piece, toList_piece] at spliced
          refine ⟨?_, fun v => ?_⟩
          · rw [WellFormed, spliced]
            exact erased.1
          · rw [mem_def, spliced, and_comm]
            exact erased.2 v.toNat

end RunSet

end Roaring
