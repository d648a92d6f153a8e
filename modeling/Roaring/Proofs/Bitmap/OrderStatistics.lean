import Roaring.Proofs.Bitmap.Cursor
import Roaring.Proofs.Bitmap.RangeUpdates

/-! Ranks, positions and ranges over a whole bitmap. Each is first an answer about the ascending list
of the values; that keys without an entry lie between others is seen nowhere else. -/
namespace Roaring

theorem join_le_join (j k u v : UInt16) : join j u ≤ join k v ↔ j < k ∨ j = k ∧ u ≤ v := by
  rw [← UInt32.not_lt, join_lt_join, ← UInt16.not_lt]
  simp only [UInt16.lt_iff_toNat_lt, ← UInt16.toNat_inj]
  omega

namespace Bitmap

variable {g : Grade} {b : Bitmap}

/-! Ranks and positions. -/

def listed (entries : List Entry) : List UInt32 :=
  entries.flatMap fun e => e.container.values.toList.map (join e.key)

theorem listed_cons (e : Entry) (entries : List Entry) :
    listed (e :: entries) = e.container.values.toList.map (join e.key) ++ listed entries :=
  List.flatMap_cons

/-- Values under larger keys are not counted. -/
theorem countP_listed_above (low : UInt16) {key : UInt16} {entries : List Entry}
    (above : ∀ e ∈ entries, key < e.key) : (listed entries).countP (· ≤ join key low) = 0 := by
  rw [List.countP_eq_zero]
  intro v held
  obtain ⟨e, member, inE⟩ := List.mem_flatMap.mp held
  obtain ⟨u, -, rfl⟩ := List.mem_map.mp inE
  have larger := above e member
  rw [decide_eq_true_eq, join_le_join]
  rintro (less | ⟨same, -⟩)
  · exact UInt16.lt_irrefl _ (UInt16.lt_trans larger less)
  · exact UInt16.ne_of_lt larger same.symm

theorem rankOnto_eq (key low : UInt16) {entries : List Entry} (regular : Regular g entries)
    (n : Nat) :
    rankOnto key low entries n = n + (listed entries).countP (· ≤ join key low) := by
  induction entries generalizing n with
  | nil => rfl
  | cons e entries ih =>
    have formed := regular.head_good.formed
    have later := (List.pairwise_cons.mp regular.ascending).1
    rw [rankOnto]
    split
    · rename_i less
      have whole : (e.container.values.toList.map (join e.key)).countP (· ≤ join key low) =
          e.container.cardinality := by
        rw [← formed.size_values, ← Array.length_toList, ← List.length_map (join e.key),
          List.countP_eq_length]
        intro v held
        obtain ⟨u, -, rfl⟩ := List.mem_map.mp held
        rw [decide_eq_true_eq, join_le_join]
        exact Or.inl less
      rw [ih regular.tail, listed_cons, List.countP_append, whole, Nat.add_assoc]
    · split
      · rename_i same
        have part : (e.container.values.toList.map (join e.key)).countP (· ≤ join key low) =
            e.container.rank low := by
          rw [formed.rank_eq, List.countP_map]
          apply List.countP_congr
          intro u _
          simp [join_le_join, same]
        rw [listed_cons, List.countP_append, part, countP_listed_above low (same ▸ later),
          Nat.add_zero]
      · rename_i notLess other
        have above := UInt16.lt_of_le_of_ne (UInt16.not_lt.mp notLess) (Ne.symm other)
        rw [countP_listed_above low (List.forall_mem_cons.mpr
          ⟨above, fun d member => UInt16.lt_trans above (later d member)⟩), Nat.add_zero]

theorem rank_eq (regular : Regular g b.entries.toList) (v : UInt32) :
    b.rank v = b.values.toList.countP (· ≤ v) := by
  rw [rank, rankOnto_eq _ _ regular, join_split, Nat.zero_add, toList_values, listed]

theorem rank_of_getElem? (regular : Regular g b.entries.toList) {n : Nat} {v : UInt32}
    (here : b.values.toList[n]? = some v) : b.rank v = n + 1 := by
  obtain ⟨inside, rfl⟩ := List.getElem?_eq_some_iff.mp here
  rw [rank_eq regular, Search.countP_le_getElem (values_ascending regular) n inside]

theorem selectFrom_eq {entries : List Entry} (formed : ∀ e ∈ entries, e.container.WellFormed)
    (n : Nat) : selectFrom entries n = (listed entries)[n]? := by
  induction entries generalizing n with
  | nil => rfl
  | cons e entries ih =>
    obtain ⟨formedHead, formedTail⟩ := List.forall_mem_cons.mp formed
    rw [selectFrom, listed_cons, List.getElem?_append, List.length_map, Array.length_toList,
      formedHead.size_values, List.getElem?_map, ← formedHead.select_eq, ih formedTail]

theorem select_eq (formed : ∀ e ∈ b.entries.toList, e.container.WellFormed) (n : Nat) :
    b.select n = b.values.toList[n]? := by
  rw [select, selectFrom_eq formed, toList_values, listed]

/-! Ranges. -/

/-- A container answers for its part of a range, and a key without one has nothing. -/
theorem containsPart_spec (regular : Regular g b.entries.toList) {p : UInt16 × Span}
    (nonempty : p.2.start < p.2.stop) (inside : p.2.stop ≤ 65536) :
    ∃ held, b.containsPart p = .ok held ∧
      (held = true ↔ ∀ low : UInt16, low.toNat ∈ p.2 → Holds b.entries.toList p.1 low) := by
  rw [containsPart]
  cases found : b.container? p.1 with
  | some c =>
    have member := (container?_eq_some_iff regular.ascending).mp found
    obtain ⟨held, done, meaning⟩ :=
      (regular.good _ member).formed.containsRange_spec p.2 inside
    refine ⟨held, done, meaning.trans (forall₂_congr fun low _ => ?_)⟩
    obtain ⟨front, back, parts⟩ := List.append_of_mem member
    rw [parts] at regular ⊢
    exact (regular.holds_at low).symm
  | none =>
    refine ⟨false, rfl, iff_of_false Bool.false_ne_true fun all => ?_⟩
    obtain ⟨e, member, key, -⟩ := all p.2.start.toUInt16 (by
      rw [toNat_toUInt16 (by omega), Span.mem_def]
      exact ⟨Nat.le_refl _, nonempty⟩)
    have there := (container?_eq_some_iff regular.ascending).mpr member
    rw [key, found] at there
    contradiction

theorem containsParts_spec (regular : Regular g b.entries.toList) {parts : List (UInt16 × Span)}
    (spread : Spread parts) :
    ∃ held, parts.allM b.containsPart = .ok held ∧
      (held = true ↔ ∀ p ∈ parts, ∀ low : UInt16, low.toNat ∈ p.2 →
        Holds b.entries.toList p.1 low) := by
  induction parts with
  | nil => exact ⟨true, rfl, by simp⟩
  | cons p parts ih =>
    obtain ⟨first, answered, here⟩ := containsPart_spec regular
      (spread.nonempty p List.mem_cons_self) (spread.inside p List.mem_cons_self)
    obtain ⟨rest, done, later⟩ := ih spread.tail
    rw [List.allM, answered]
    cases first with
    | true =>
      refine ⟨rest, done, ?_⟩
      rw [later, List.forall_mem_cons, and_iff_right (here.mp rfl)]
    | false =>
      refine ⟨false, rfl, ?_⟩
      rw [List.forall_mem_cons, ← here]
      simp

theorem containsRange_spec (regular : Regular g b.entries.toList) (range : Span) :
    ∃ held, b.containsRange range = .ok held ∧ (held = true ↔ range.stop ≤ range.start ∨
      range.stop ≤ domain ∧ ∀ v : UInt32, v.toNat ∈ range → b.Has v) := by
  rw [containsRange]
  split
  · rename_i nothing
    rw [Span.isEmpty, decide_eq_true_eq] at nothing
    exact ⟨true, rfl, iff_of_true rfl (Or.inl nothing)⟩
  · rename_i something
    rw [Span.isEmpty, decide_eq_true_eq, Nat.not_le] at something
    split
    · rename_i outside
      exact ⟨false, rfl, iff_of_false Bool.false_ne_true (by omega)⟩
    · rename_i inside
      have inside := Nat.not_lt.mp inside
      obtain ⟨held, done, meaning⟩ :=
        containsParts_spec regular (spread_keyRanges something inside)
      refine ⟨held, done, meaning.trans ?_⟩
      rw [or_iff_right (Nat.not_le.mpr something), and_iff_right inside]
      have reaches := reaches_keyRanges something inside
      constructor
      · intro all v here
        obtain ⟨p, member, key, low⟩ := (reaches v).mpr here
        rw [Has, ← key]
        exact all p member _ low
      · intro all p member low here
        have reached := reaches (join p.1 low)
        have held := all (join p.1 low)
        rw [split_join] at reached
        rw [Has, split_join] at held
        exact held (reached.mp ⟨p, member, rfl, here⟩)

/-! Walks. -/

def RankCursor.run : Nat → RankCursor → List (Option (Nat × UInt32))
  | 0, _ => []
  | n + 1, c => c.next.1 :: run n c.next.2

theorem RankCursor.run_eq (n : Nat) (c : RankCursor) (values : List UInt32)
    (left : c.rest.Left values) :
    c.run n = (List.range n).map fun i => values[i]?.map fun v => (c.rank + i + 1, v) := by
  induction n generalizing c values with
  | zero => rfl
  | succ n ih =>
    obtain ⟨answer, kept⟩ := Cursor.follows.front c.rest values left
    change c.rest.next.1 = _ at answer
    change Cursor.Left c.rest.next.2 _ at kept
    rw [run, List.range_succ_eq_map, List.map_cons, List.map_map, next]
    generalize c.rest.next = outcome at *
    obtain ⟨taken, rest⟩ := outcome
    simp only at answer kept
    subst answer
    cases values with
    | nil =>
      simp only [List.head?_nil]
      rw [ih _ [] kept]
      simp [Function.comp_def, List.map_const']
    | cons v values =>
      simp only [List.head?_cons]
      rw [ih _ values kept]
      congr 1
      apply List.map_congr_left
      intro i _
      simp only [Function.comp_apply, List.getElem?_cons_succ, Nat.succ_eq_add_one]
      rw [Nat.add_right_comm c.rank, Nat.add_assoc c.rank]

theorem run_rankCursor (regular : Regular g b.entries.toList) (n : Nat) :
    b.rankCursor.run n =
      (List.range n).map fun i => b.values.toList[i]?.map fun v => (b.rank v, v) := by
  rw [RankCursor.run_eq n b.rankCursor _ (left_cursor fun e member => (regular.good e member).formed)]
  apply List.map_congr_left
  intro i _
  cases here : b.values.toList[i]? with
  | none => rfl
  | some v =>
    rw [Option.map_some, Option.map_some, rank_of_getElem? regular here]
    change some (0 + i + 1, v) = _
    rw [Nat.zero_add]

/-! All at once. -/

/-- What a bitmap answers about the order of its values, and about ranges of them. The walks are those
of the cursors that hand the values out. -/
structure OrderStatistics (b : Bitmap) : Prop where
  cardinality : b.cardinality = {v | b.contains v = true}.ncard
  contains : ∀ v, b.contains v = true ↔ ∃ n, b.select n = some v
  ascending : ∀ m n u v, m < n → b.select m = some u → b.select n = some v → u < v
  rank : ∀ v, b.rank v = {u | b.contains u = true ∧ u ≤ v}.ncard
  walked : ∀ n, walk (List.replicate n End.front) b.cursor = (List.range n).map b.select
  select_eq_none : ∀ n, b.select n = none ↔ b.cardinality ≤ n
  rank_select : ∀ n v, b.select n = some v → b.rank v = n + 1
  select_rank : ∀ v, b.contains v = true → b.select (b.rank v - 1) = some v
  ranked : ∀ n, b.rankCursor.run n =
    (List.range n).map fun i => (b.select i).map fun v => (b.rank v, v)
  min? : b.min? = b.select 0 ∧ walk [End.front] b.cursor = [b.min?]
  max? : b.max? = b.select (b.cardinality - 1) ∧ walk [End.back] b.cursor = [b.max?]
  containsRange : ∀ range : Span, ∃ held, b.containsRange range = .ok held ∧
    (held = true ↔ range.stop ≤ range.start ∨
      range.stop ≤ domain ∧ ∀ v : UInt32, v.toNat ∈ range → b.contains v = true)

/-- Ranks, positions, both walks and ranges agree on every well-formed bitmap, whatever its
encodings. -/
theorem order_statistics (b : Bitmap) (formed : b.WellFormed) : b.OrderStatistics := by
  have regular := wellFormed_iff.mp formed
  have formedAll : ∀ e ∈ b.entries.toList, e.container.WellFormed :=
    fun e member => (regular.good e member).formed
  have sorted := values_ascending regular
  have distinct : b.values.toList.Nodup := sorted.imp UInt32.ne_of_lt
  have mem (v : UInt32) : v ∈ b.values.toList ↔ b.contains v = true := by
    rw [Array.mem_toList_iff, mem_values formedAll, contains_iff regular]
  have length : b.values.toList.length = b.cardinality := by
    rw [Array.length_toList, size_values formedAll]
  have select := select_eq formedAll
  have left := left_cursor formedAll
  constructor
  case cardinality =>
    have whole : b.values.toList.countP b.contains = b.values.toList.length :=
      List.countP_eq_length.mpr fun v listed => (mem v).mp listed
    rw [← length, ← whole, countP_eq_ncard distinct]
    simp only [mem, and_self]
  case contains =>
    intro v
    rw [← mem, List.mem_iff_getElem?]
    simp only [select]
  case ascending =>
    intro m n u v less early late
    rw [select] at early late
    obtain ⟨insideM, rfl⟩ := List.getElem?_eq_some_iff.mp early
    obtain ⟨insideN, rfl⟩ := List.getElem?_eq_some_iff.mp late
    exact List.pairwise_iff_getElem.mp sorted m n insideM insideN less
  case rank =>
    intro v
    rw [rank_eq regular, countP_eq_ncard distinct]
    simp only [mem, decide_eq_true_eq]
  case walked =>
    intro n
    rw [Cursor.follows.walk_eq _ _ _ left, walk_front]
    exact List.map_congr_left fun i _ => (select i).symm
  case select_eq_none =>
    intro n
    rw [select, List.getElem?_eq_none_iff, length]
  case rank_select =>
    intro n v here
    rw [select] at here
    exact rank_of_getElem? regular here
  case select_rank =>
    intro v held
    obtain ⟨n, here⟩ := List.mem_iff_getElem?.mp ((mem v).mpr held)
    rw [rank_of_getElem? regular here, Nat.add_sub_cancel, select, here]
  case ranked =>
    intro n
    rw [run_rankCursor regular]
    simp only [select]
  case min? =>
    rw [min?_eq regular, select, Cursor.follows.walk_eq _ _ _ left, List.head?_eq_getElem?]
    exact ⟨rfl, congrArg ([·]) List.head?_eq_getElem?⟩
  case max? =>
    rw [max?_eq regular, select, Cursor.follows.walk_eq _ _ _ left, ← length,
      List.getLast?_eq_getElem?]
    exact ⟨rfl, congrArg ([·]) List.getLast?_eq_getElem?⟩
  case containsRange =>
    intro range
    obtain ⟨held, done, meaning⟩ := containsRange_spec regular range
    simp only [contains_iff regular]
    exact ⟨held, done, meaning⟩

/-- From the last low half of one key, over a key without an entry, to the first of the next. -/
theorem order_statistics_at_borders :
    let b : Bitmap := ⟨#[⟨0, .array ⟨#[1, 65535]⟩⟩, ⟨2, .runs ⟨#[⟨0, 65535⟩]⟩⟩,
      ⟨65535, .array ⟨#[65535]⟩⟩]⟩
    b.WellFormed ∧ b.OrderStatistics ∧ (b.select 1 = some 65535 ∧ b.rank 65535 = 2) ∧
      (b.select 2 = some 131072 ∧ b.rank 131072 = 3) ∧
      b.select 65538 = some 4294967295 ∧ b.rank 4294967295 = 65539 := by
  intro b
  have formed : b.WellFormed := by decide
  have exact := order_statistics b formed
  have first : b.select 1 = some 65535 := by decide
  have second : b.select 2 = some 131072 := by decide
  have last : b.select 65538 = some 4294967295 := by decide
  exact ⟨formed, exact, ⟨first, exact.rank_select 1 _ first⟩, ⟨second, exact.rank_select 2 _ second⟩,
    last, exact.rank_select 65538 _ last⟩

end Bitmap

end Roaring
