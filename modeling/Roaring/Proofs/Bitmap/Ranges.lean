import Roaring.Proofs.Bitmap.Compaction

/-! Changes of a bitmap by a range. The range reaches consecutive keys, with a part of it under each;
a walk over the entries with these keys puts out others in their place. -/
namespace Roaring.Bitmap

variable {g : Grade} {b : Bitmap}

/-- Parts of a range under ascending keys, none of them empty. -/
structure Spread (parts : List (UInt16 × Span)) : Prop where
  ascending : parts.Pairwise (fun p q => p.1 < q.1)
  nonempty : ∀ p ∈ parts, p.2.start < p.2.stop
  inside : ∀ p ∈ parts, p.2.stop ≤ 65536

def Reaches (parts : List (UInt16 × Span)) (key low : UInt16) : Prop :=
  ∃ p ∈ parts, p.1 = key ∧ low.toNat ∈ p.2

theorem toNat_key {range : Span} (inside : range.stop ≤ domain) {key : Nat}
    (within : key ≤ (range.stop - 1) / 65536) : key.toUInt16.toNat = key := by
  rw [domain] at inside
  exact toNat_toUInt16 (by omega)

theorem mem_keyRanges {range : Span} (forwards : range.start < range.stop)
    (inside : range.stop ≤ domain) (p : UInt16 × Span) :
    p ∈ keyRanges range ↔ (range.start / 65536 ≤ p.1.toNat ∧
      p.1.toNat ≤ (range.stop - 1) / 65536) ∧ p.2 = lowRange range p.1.toNat := by
  rw [keyRanges, List.mem_map]
  constructor
  · rintro ⟨key, member, rfl⟩
    rw [List.mem_range'_1] at member
    simp only
    rw [toNat_key inside (by omega)]
    exact ⟨by omega, rfl⟩
  · rintro ⟨within, same⟩
    refine ⟨p.1.toNat, ?_, ?_⟩
    · rw [List.mem_range'_1]
      omega
    · rw [← same, Nat.toUInt16_eq, UInt16.ofNat_toNat]

theorem spread_keyRanges {range : Span} (forwards : range.start < range.stop)
    (inside : range.stop ≤ domain) : Spread (keyRanges range) := by
  refine ⟨?_, ?_, ?_⟩
  · rw [keyRanges, List.pairwise_map]
    refine List.Pairwise.imp_of_mem ?_ List.pairwise_lt_range'
    intro a b memberA memberB less
    rw [List.mem_range'_1] at memberA memberB
    rw [UInt16.lt_iff_toNat_lt]
    simp only
    rw [toNat_key inside (by omega), toNat_key inside (by omega)]
    exact less
  · intro p member
    obtain ⟨within, same⟩ := (mem_keyRanges forwards inside p).mp member
    rw [same, lowRange]
    simp only
    omega
  · intro p member
    rw [((mem_keyRanges forwards inside p).mp member).2]
    exact lowRange_stop_le range _

theorem Spread.tail {p : UInt16 × Span} {parts : List (UInt16 × Span)}
    (spread : Spread (p :: parts)) : Spread parts :=
  ⟨(List.pairwise_cons.mp spread.ascending).2,
    fun q member => spread.nonempty q (List.mem_cons_of_mem _ member),
    fun q member => spread.inside q (List.mem_cons_of_mem _ member)⟩

theorem Spread.head_lt {p : UInt16 × Span} {parts : List (UInt16 × Span)}
    (spread : Spread (p :: parts)) {k v : UInt16} (reached : Reaches parts k v) : p.1 < k := by
  obtain ⟨q, member, rfl, -⟩ := reached
  exact (List.pairwise_cons.mp spread.ascending).1 q member

/-! Filling. -/

def amount (entries : List Entry) : Nat := (entries.map fun e => e.container.cardinality).sum

theorem amount_nil : amount [] = 0 := rfl

theorem amount_cons (e : Entry) (entries : List Entry) :
    amount (e :: entries) = e.container.cardinality + amount entries := List.sum_cons

theorem amount_append (ds es : List Entry) : amount (ds ++ es) = amount ds + amount es := by
  rw [amount, List.map_append, List.sum_append, amount, amount]

/-- What the walk that fills does at a key. It takes the entry with the key, if there is one, and puts
out a container with the part of the range and what was there; it is then at the later parts, with the
entries that have larger keys. -/
structure FillStep (g : Grade) (p : UInt16 × Span) (parts : List (UInt16 × Span))
    (existing here rest : List Entry) (c : Container) : Prop where
  taken : existing = here ++ rest
  under : ∀ e ∈ here, e.key = p.1
  behind : ∀ e ∈ rest, p.1 < e.key
  within : ∀ e ∈ rest, ∃ q ∈ parts, q.1 = e.key
  good : g.Good c
  mem_iff : ∀ v, v ∈ c ↔ v.toNat ∈ p.2 ∨ Holds here p.1 v
  more : amount here ≤ c.cardinality
  walk : ∀ out added, fillOnto (p :: parts) existing out added =
    fillOnto parts rest (out.push ⟨p.1, c⟩) (added + (c.cardinality - amount here))

/-- Entries under keys of later parts only. -/
theorem within_tail {p : UInt16 × Span} {parts : List (UInt16 × Span)} {existing : List Entry}
    (within : ∀ e ∈ existing, ∃ q ∈ p :: parts, q.1 = e.key)
    (other : ∀ e ∈ existing, p.1 < e.key) : ∀ e ∈ existing, ∃ q ∈ parts, q.1 = e.key := by
  intro e member
  obtain ⟨q, inParts, key⟩ := within e member
  rcases List.mem_cons.mp inParts with rfl | inTail
  · exact absurd key (UInt16.ne_of_lt (other e member))
  · exact ⟨q, inTail, key⟩

theorem fillOnto_step {p : UInt16 × Span} {parts : List (UInt16 × Span)} {existing : List Entry}
    (spread : Spread (p :: parts)) (regular : Regular g existing)
    (within : ∀ e ∈ existing, ∃ q ∈ p :: parts, q.1 = e.key) :
    ∃ here rest c, FillStep g p parts existing here rest c := by
  obtain ⟨key, low⟩ := p
  have inside := spread.inside _ List.mem_cons_self
  obtain ⟨fresh, made, settled⟩ := Container.ofRange_spec low inside
  -- no entry with the key, and all later ones are above it
  have absent (behind : ∀ e ∈ existing, key < e.key)
      (walk : ∀ out added, fillOnto ((key, low) :: parts) existing out added =
        fillOnto parts existing (out.push ⟨key, fresh⟩) (added + fresh.cardinality)) :
      FillStep g (key, low) parts existing [] existing fresh := by
    refine ⟨rfl, by simp, behind, within_tail within behind, ?_, fun v => ?_, Nat.zero_le _, walk⟩
    · exact Grade.good_of_canonical settled.canonical
    · rw [settled.mem_iff, holds_nil, or_false]
  cases existing with
  | nil => exact ⟨[], [], fresh, absent (by simp) fun out added => by rw [fillOnto, made]; rfl⟩
  | cons e existing =>
    have later := (List.pairwise_cons.mp regular.ascending).1
    by_cases same : e.key = key
    · subst same
      obtain ⟨c, done, changed⟩ := Container.insertRange_spec regular.head_good.formed low inside
      refine ⟨[e], existing, c, rfl, by simp, later, ?_, ?_, fun v => ?_, ?_, fun out added => ?_⟩
      · exact within_tail (fun d member => within d (List.mem_cons_of_mem _ member)) later
      · exact regular.head_good.step changed.formed changed.canonical
      · rw [changed.mem_iff, or_comm]
        simp
      · exact regular.head_good.formed.cardinality_le changed.formed fun v old =>
          (changed.mem_iff v).mpr (Or.inl old)
      · rw [fillOnto, if_pos rfl, done]
        rfl
    · have above : key < e.key := by
        obtain ⟨q, inParts, keyQ⟩ := within e List.mem_cons_self
        rcases List.mem_cons.mp inParts with rfl | inTail
        · exact absurd keyQ.symm same
        · rw [← keyQ]
          exact (List.pairwise_cons.mp spread.ascending).1 q inTail
      refine ⟨[], e :: existing, fresh, absent ?_ fun out added => ?_⟩
      · exact List.forall_mem_cons.mpr ⟨above, fun d member => UInt16.lt_trans above (later d member)⟩
      · rw [fillOnto, if_neg same, made]
        rfl

/-- What the rest of the walk adds comes after the container that is put out. -/
theorem FillStep.adds {p : UInt16 × Span} {parts : List (UInt16 × Span)}
    {existing here rest : List Entry} {c : Container} {result : Checked (Array Entry)}
    {out : Array Entry} (step : FillStep g p parts existing here rest c)
    (spread : Spread (p :: parts))
    (adds : Adds g result (out.push ⟨p.1, c⟩) (fun k v => Reaches parts k v ∨ Holds rest k v)) :
    Adds g result out (fun k v => Reaches (p :: parts) k v ∨ Holds existing k v) := by
  have nonempty := spread.nonempty p List.mem_cons_self
  have inside := spread.inside p List.mem_cons_self
  have first : p.2.start.toUInt16 ∈ c := by
    rw [step.mem_iff, Span.mem_def, toNat_toUInt16 (by omega)]
    exact Or.inl ⟨Nat.le_refl _, nonempty⟩
  have some := Container.isEmpty_eq_false step.good.formed _ first
  rw [← pushNonempty_of_nonempty out p.1 c some] at adds
  have behind (k v : UInt16) (held : Holds rest k v) : p.1 < k :=
    forall_holds (p := (p.1 < ·)) step.behind k v held
  apply adds.push step.good
  · rintro k v (reached | held)
    · exact spread.head_lt reached
    · exact behind k v held
  · intro k v
    have reaches : Reaches (p :: parts) k v ↔ (p.1 = k ∧ v.toNat ∈ p.2) ∨ Reaches parts k v := by
      simp [Reaches]
    rw [reaches, step.mem_iff, step.taken, holds_append]
    by_cases same : p.1 = k
    · subst same
      have notLater : ¬ Reaches parts p.1 v := fun reached =>
        UInt16.lt_irrefl _ (spread.head_lt reached)
      have notRest : ¬ Holds rest p.1 v := fun held => UInt16.lt_irrefl _ (behind _ v held)
      simp [notLater, notRest]
    · have notHere : ¬ Holds here k v := fun held =>
        same (forall_holds (p := (· = p.1)) step.under k v held).symm
      simp [same, notHere]

theorem FillStep.regular {p : UInt16 × Span} {parts : List (UInt16 × Span)}
    {existing here rest : List Entry} {c : Container}
    (step : FillStep g p parts existing here rest c) (regular : Regular g existing) :
    Regular g rest := by
  rw [step.taken] at regular
  exact regular.right

/-- With the last part the last entry is taken. -/
theorem eq_nil_of_within {existing : List Entry}
    (within : ∀ e ∈ existing, ∃ p ∈ ([] : List (UInt16 × Span)), p.1 = e.key) : existing = [] := by
  apply List.eq_nil_iff_forall_not_mem.mpr
  intro e member
  obtain ⟨p, inside, -⟩ := within e member
  simp at inside

/-- Filling puts a container under every key: the old one with its part of the range, or a new
one. -/
theorem fillOnto_spec (parts : List (UInt16 × Span)) (existing : List Entry) (out : Array Entry)
    (added : Nat) (spread : Spread parts) (regular : Regular g existing)
    (within : ∀ e ∈ existing, ∃ p ∈ parts, p.1 = e.key) :
    Adds g ((fillOnto parts existing out added).map Prod.fst) out
      (fun k v => Reaches parts k v ∨ Holds existing k v) := by
  induction parts generalizing existing out added with
  | nil =>
    rw [eq_nil_of_within within, fillOnto]
    exact adds_nothing out _ (by simp [Reaches])
  | cons p parts ih =>
    obtain ⟨here, rest, c, step⟩ := fillOnto_step spread regular within
    rw [step.walk]
    exact step.adds spread (ih _ _ _ spread.tail (step.regular regular) step.within)

/-- The count goes up by what the entries hold more than before. -/
theorem fillOnto_count (parts : List (UInt16 × Span)) (existing : List Entry)
    (out all : Array Entry) (added total : Nat) (spread : Spread parts)
    (regular : Regular g existing) (within : ∀ e ∈ existing, ∃ p ∈ parts, p.1 = e.key)
    (done : fillOnto parts existing out added = .ok (all, total)) :
    total + amount out.toList + amount existing = added + amount all.toList := by
  induction parts generalizing existing out added with
  | nil =>
    rw [eq_nil_of_within within] at done ⊢
    rw [fillOnto, Except.ok.injEq, Prod.mk.injEq] at done
    rw [done.1, done.2, amount_nil, Nat.add_zero]
  | cons p parts ih =>
    obtain ⟨here, rest, c, step⟩ := fillOnto_step spread regular within
    rw [step.walk] at done
    have counted := ih _ _ _ spread.tail (step.regular regular) step.within done
    have more := step.more
    rw [Array.toList_push, amount_append, amount_cons, amount_nil] at counted
    rw [step.taken, amount_append]
    simp only at counted
    omega

/-- Entries under the keys that a range reaches, between entries with smaller and larger keys. -/
structure Window (range : Span) (front middle back : List Entry) : Prop where
  before : ∀ e ∈ front, e.key.toNat < range.start / 65536
  between : ∀ e ∈ middle, range.start / 65536 ≤ e.key.toNat ∧
    e.key.toNat ≤ (range.stop - 1) / 65536
  behind : ∀ e ∈ back, (range.stop - 1) / 65536 < e.key.toNat

theorem keyBounds_spec (ascending : b.entries.toList.Pairwise (fun d e => d.key < e.key))
    (range : Span) (forwards : range.start < range.stop) :
    ∃ front middle back, b.entries.toList = front ++ middle ++ back ∧
      front.length = (b.keyBounds range).1 ∧
      (b.keyBounds range).1 + middle.length = (b.keyBounds range).2 ∧
      Window range front middle back := by
  have ordered : range.start / 65536 ≤ (range.stop - 1) / 65536 :=
    Nat.div_le_div_right (by omega)
  have falling (test : Nat → Bool) (fall : ∀ m n, m < n → test n = true → test m = true) :
      Search.Falling (fun e : Entry => test e.key.toNat) b.entries.toList := by
    apply ascending.imp
    intro d e less passes
    exact fall _ _ (UInt16.lt_iff_toNat_lt.mp less) passes
  have low := Search.parts_partitionPoint b.entries _
    (falling (fun n => n < range.start / 65536) (by
      intro m n less passes
      rw [decide_eq_true_eq] at *
      omega))
  obtain ⟨-, high⟩ := Search.parts_partitionPointFrom b.entries (b.keyBounds range).1 _
    (falling (fun n => n ≤ (range.stop - 1) / 65536) (by
      intro m n less passes
      rw [decide_eq_true_eq] at *
      omega))
    (low.inside.trans_eq Array.length_toList) (by
      intro e member
      have := low.passes e member
      rw [decide_eq_true_eq] at *
      omega)
  obtain ⟨front, middle, back, parts, indexLow, indexHigh, before, inside, behind⟩ :=
    low.window high (by
      intro e _ passes
      rw [decide_eq_true_eq] at *
      omega)
  refine ⟨front, middle, back, parts, indexLow, indexHigh, ?_, ?_, ?_⟩
  · exact fun e member => by simpa using before e member
  · exact fun e member => by simpa using inside e member
  · exact fun e member => by simpa using behind e member

/-- Other entries may take the place of those in the window. -/
theorem Window.ascending {range : Span} {front middle kept back : List Entry}
    (window : Window range front kept back)
    (all : (front ++ middle ++ back).Pairwise (fun d e => d.key < e.key))
    (inner : kept.Pairwise (fun d e => d.key < e.key)) :
    (front ++ kept ++ back).Pairwise (fun d e => d.key < e.key) := by
  obtain ⟨left, last, outer⟩ := List.pairwise_append.mp all
  obtain ⟨first, -, -⟩ := List.pairwise_append.mp left
  refine List.pairwise_append.mpr ⟨List.pairwise_append.mpr ⟨first, inner, ?_⟩, last, ?_⟩
  · intro d early e held
    have := window.before d early
    have := window.between e held
    rw [UInt16.lt_iff_toNat_lt]
    omega
  · intro d member f late
    rcases List.mem_append.mp member with early | held
    · exact outer d (List.mem_append_left middle early) f late
    · have := window.between d held
      have := window.behind f late
      rw [UInt16.lt_iff_toNat_lt]
      omega

theorem regular_splice {front middle back : List Entry} {range : Span} (kept : List Entry)
    (regular : Regular g (front ++ middle ++ back)) (regularKept : Regular g kept)
    (window : Window range front kept back) : Regular g (front ++ kept ++ back) := by
  refine ⟨window.ascending regular.ascending regularKept.ascending, ?_, ?_⟩
  · rw [List.forall_mem_append, List.forall_mem_append]
    exact ⟨⟨regular.left.left.good, regularKept.good⟩, regular.right.good⟩
  · rw [List.forall_mem_append, List.forall_mem_append]
    exact ⟨⟨regular.left.left.nonempty, regularKept.nonempty⟩, regular.right.nonempty⟩

theorem ok_of_map_fst {α β : Type} {result : Checked (α × β)} {a : α}
    (done : result.map Prod.fst = .ok a) : ∃ n, result = .ok (a, n) := by
  cases result with
  | error fault => contradiction
  | ok pair => exact ⟨pair.2, by rw [← Except.ok.inj done]⟩

theorem insertRange_of_isEmpty (b : Bitmap) {range : Span} (nothing : range.isEmpty = true) :
    b.insertRange range = .ok (b, 0) := by
  rw [insertRange, if_pos nothing]

/-- What filling makes of the entries that a range reaches takes their place. -/
theorem insertRange_cases (ascending : b.entries.toList.Pairwise (fun d e => d.key < e.key))
    {range : Span} (something : range.isEmpty = false) (inside : range.stop ≤ domain) :
    ∃ front middle back, b.entries.toList = front ++ middle ++ back ∧
      Window range front middle back ∧
      ∀ all added, fillOnto (keyRanges range) middle #[] 0 = .ok (all, added) →
        ∃ c, b.insertRange range = .ok (c, added) ∧
          c.entries.toList = front ++ all.toList ++ back := by
  have forwards : range.start < range.stop := by simpa [Span.isEmpty] using something
  obtain ⟨front, middle, back, parts, indexLow, indexHigh, window⟩ :=
    keyBounds_spec ascending range forwards
  refine ⟨front, middle, back, parts, window, fun all added filled => ?_⟩
  rw [insertRange, if_neg (by simp [something]), if_neg (Nat.not_lt.mpr inside)]
  generalize b.keyBounds range = bounds at *
  obtain ⟨lo, hi⟩ := bounds
  simp only at indexLow indexHigh ⊢
  rw [toList_extract_of_parts parts indexLow indexHigh, filled]
  exact ⟨_, rfl, toList_splice parts indexLow indexHigh all⟩

/-- A walk has put others in place of the entries that a range reaches, and left the rest. -/
structure Replaced (g : Grade) (range : Span) (b c : Bitmap)
    (front middle kept back : List Entry) : Prop where
  before : b.entries.toList = front ++ middle ++ back
  after : c.entries.toList = front ++ kept ++ back
  reached : Window range front middle back
  placed : Window range front kept back
  kept : Regular g kept

theorem Replaced.regular {range : Span} {c : Bitmap} {front middle kept back : List Entry}
    (replaced : Replaced g range b c front middle kept back)
    (regular : Regular g b.entries.toList) : Regular g c.entries.toList := by
  rw [replaced.before] at regular
  rw [replaced.after]
  exact regular_splice kept regular replaced.kept replaced.placed

/-- Where a range is not empty and inside the domain, it is added to the entries that it reaches. -/
theorem insertRange_replaced (regular : Regular g b.entries.toList) {range : Span}
    (forwards : range.start < range.stop) (inside : range.stop ≤ domain) :
    ∃ c added front middle kept back, b.insertRange range = .ok (c, added) ∧
      Replaced g range b c front middle kept back ∧
      (∀ k v, Holds kept k v ↔ Reaches (keyRanges range) k v ∨ Holds middle k v) ∧
      added + amount middle = amount kept := by
  have something : range.isEmpty = false := by simpa [Span.isEmpty] using forwards
  obtain ⟨front, middle, back, parts, window, answer⟩ :=
    insertRange_cases regular.ascending something inside
  have regularMiddle : Regular g middle := by
    rw [parts] at regular
    exact regular.left.right
  have spread := spread_keyRanges forwards inside
  have within (e : Entry) (member : e ∈ middle) : ∃ p ∈ keyRanges range, p.1 = e.key :=
    ⟨(e.key, lowRange range e.key.toNat),
      (mem_keyRanges forwards inside _).mpr ⟨window.between e member, rfl⟩, rfl⟩
  obtain ⟨all, kept, done, put, regularKept, holds⟩ :=
    fillOnto_spec (keyRanges range) middle #[] 0 spread regularMiddle within
  obtain ⟨added, filled⟩ := ok_of_map_fst done
  obtain ⟨c, inserted, entries⟩ := answer all added filled
  have whole : all.toList = kept := by simpa using put
  have counted := fillOnto_count _ _ _ _ _ _ spread regularMiddle within filled
  rw [whole] at entries counted
  have placed : Window range front kept back := by
    refine ⟨window.before, fun d member => ?_, window.behind⟩
    obtain ⟨v, held⟩ := regularKept.exists_holds member
    rcases (holds d.key v).mp held with ⟨p, member, key, -⟩ | ⟨e, member, key, -⟩
    · rw [← key]
      exact ((mem_keyRanges forwards inside p).mp member).1
    · rw [← key]
      exact window.between e member
  have replaced : Replaced g range b c front middle kept back :=
    ⟨parts, entries, window, placed, regularKept⟩
  exact ⟨c, added, front, middle, kept, back, inserted, replaced, holds,
    by simpa [amount_nil] using counted⟩

theorem insertRange_spec (regular : Regular g b.entries.toList) (range : Span)
    (inside : range.stop ≤ domain) :
    ∃ c added, b.insertRange range = .ok (c, added) ∧ Regular g c.entries.toList := by
  cases something : range.isEmpty with
  | true => exact ⟨b, 0, insertRange_of_isEmpty b something, regular⟩
  | false =>
    have forwards : range.start < range.stop := by simpa [Span.isEmpty] using something
    obtain ⟨c, added, _, _, _, _, done, replaced, -⟩ := insertRange_replaced regular forwards inside
    exact ⟨c, added, done, replaced.regular regular⟩

theorem ofRange_spec (range : Span) (inside : range.stop ≤ domain) :
    ∃ c, ofRange range = .ok c ∧ Regular g c.entries.toList := by
  have regularEmpty : Regular g empty.entries.toList := regular_nil
  obtain ⟨c, added, done, regular⟩ := insertRange_spec regularEmpty range inside
  exact ⟨c, by rw [ofRange, done]; rfl, regular⟩

/-! Removing a range. -/

theorem eraseRange_of_backwards (b : Bitmap) {range : Span}
    (backwards : (clamped range).stop ≤ range.start) : b.eraseRange range = .ok (b, 0) := by
  rw [eraseRange]
  exact if_pos (decide_eq_true backwards)

/-- The walk starts at the first entry that the range reaches and goes on to the last one. What it does
not settle is dropped. -/
theorem eraseRange_eq (b : Bitmap) {range : Span} {lo hi : Nat} {r : Removal}
    (forwards : range.start < (clamped range).stop) (bounds : b.keyBounds (clamped range) = (lo, hi))
    (walked : compactFrom (clamped range) (hi - lo) lo ⟨b.entries, lo, 0⟩ = .ok r) :
    b.eraseRange range = .ok (⟨splice r.entries r.write hi #[]⟩, r.removed) := by
  have something : ¬ (clamped range).isEmpty = true := by
    rw [Span.isEmpty, decide_eq_true_eq]
    exact Nat.not_le.mpr forwards
  rw [eraseRange]
  simp only
  rw [if_neg something, bounds]
  simp only
  rw [walked]
  rfl

/-- What is left of the entries that a range reaches takes their place. -/
theorem eraseRange_cases (ascending : b.entries.toList.Pairwise (fun d e => d.key < e.key))
    (formed : ∀ e ∈ b.entries.toList, e.container.WellFormed) {range : Span}
    (forwards : range.start < (clamped range).stop) :
    ∃ c front middle back, b.eraseRange range = .ok (c, lost (clamped range) middle) ∧
      b.entries.toList = front ++ middle ++ back ∧ Window (clamped range) front middle back ∧
      c.entries.toList = front ++ cutAll (clamped range) middle ++ back := by
  obtain ⟨front, middle, back, parts, indexLow, indexHigh, window⟩ :=
    keyBounds_spec ascending (clamped range) forwards
  rw [parts] at formed
  obtain ⟨moved, behind, walked, order, size⟩ := compactFrom_eq (clamped range) front [] middle back
    (fun e member => formed e (List.mem_append_left back (List.mem_append_right front member)))
    b.entries 0 (by rw [List.append_nil, parts])
  rw [List.length_nil, Nat.zero_add] at size
  rw [List.length_nil, Nat.add_zero, Nat.zero_add] at walked
  have bounds : b.keyBounds (clamped range) = (front.length, front.length + middle.length) :=
    Prod.ext indexLow.symm (by rw [indexLow, indexHigh])
  rw [← Nat.add_sub_cancel_left (n := front.length) (m := middle.length)] at walked
  refine ⟨_, front, middle, back, eraseRange_eq b forwards bounds walked, parts, window, ?_⟩
  have cleared := toList_splice order rfl (by rw [List.length_append, Nat.add_assoc, size]) #[]
  rw [cleared, List.append_nil]

theorem Window.cutAll {range : Span} {front middle back : List Entry}
    (window : Window range front middle back) :
    Window range front (cutAll range middle) back := by
  refine ⟨window.before, fun d member => ?_, window.behind⟩
  obtain ⟨e, inside, rfl, -⟩ := mem_cutAll.mp member
  exact window.between e inside

/-! The answer in terms of all entries: a range takes nothing from those that it does not reach. -/

theorem lowRange_clamped (range : Span) (key : UInt16) :
    lowRange (clamped range) key.toNat = lowRange range key.toNat := by
  have := key.toNat_lt
  simp only [lowRange, clamped, domain, Span.mk.injEq, true_and]
  omega

theorem cut_clamped (range : Span) : cut (clamped range) = cut range := by
  funext e
  rw [cut, cut, lowRange_clamped]

/-- A key that the range does not reach. -/
def Untouched (range : Span) (key : UInt16) : Prop :=
  key.toNat < range.start / 65536 ∨ (range.stop - 1) / 65536 < key.toNat

theorem Untouched.isEmpty {range : Span} {key : UInt16} (untouched : Untouched range key) :
    (lowRange range key.toNat).isEmpty = true := by
  rw [Untouched] at untouched
  rw [Span.isEmpty, decide_eq_true_eq, lowRange]
  simp only
  omega

theorem cutAll_of_isEmpty {range : Span} {entries : List Entry}
    (nonempty : ∀ e ∈ entries, e.container.isEmpty = false)
    (apart : ∀ e ∈ entries, (lowRange range e.key.toNat).isEmpty = true) :
    cutAll range entries = entries ∧ lost range entries = 0 := by
  induction entries with
  | nil => exact ⟨rfl, rfl⟩
  | cons e entries ih =>
    obtain ⟨some, nonempty⟩ := List.forall_mem_cons.mp nonempty
    obtain ⟨nothing, apart⟩ := List.forall_mem_cons.mp apart
    obtain ⟨kept, zero⟩ := ih nonempty apart
    rw [cutAll_cons, lost_cons, cut_of_isEmpty e nothing, slot_of_nonempty e some, kept, zero, Nat.sub_self]
    exact ⟨rfl, rfl⟩

theorem eraseRange_entries (regular : Regular g b.entries.toList) (range : Span) :
    ∃ c, b.eraseRange range = .ok (c, lost range b.entries.toList) ∧
      c.entries.toList = cutAll range b.entries.toList := by
  rw [lost, cutAll, ← cut_clamped, ← lost, ← cutAll]
  rcases Nat.lt_or_ge range.start (clamped range).stop with forwards | backwards
  · obtain ⟨c, front, middle, back, done, parts, window, entries⟩ := eraseRange_cases
      regular.ascending (fun e member => (regular.good e member).formed) forwards
    rw [parts] at regular
    obtain ⟨keptFront, zeroFront⟩ := cutAll_of_isEmpty regular.left.left.nonempty fun e member =>
      Untouched.isEmpty (Or.inl (window.before e member))
    obtain ⟨keptBack, zeroBack⟩ := cutAll_of_isEmpty regular.right.nonempty fun e member =>
      Untouched.isEmpty (Or.inr (window.behind e member))
    rw [parts, cutAll_append, cutAll_append, lost_append, lost_append, keptFront, keptBack, zeroFront,
      zeroBack, Nat.zero_add, Nat.add_zero]
    exact ⟨c, done, entries⟩
  · have nothing (e : Entry) : (lowRange (clamped range) e.key.toNat).isEmpty = true := by
      have start : (clamped range).start = range.start := rfl
      rw [Span.isEmpty, decide_eq_true_eq, lowRange]
      simp only
      omega
    obtain ⟨kept, zero⟩ := cutAll_of_isEmpty regular.nonempty fun e _ => nothing e
    rw [kept, zero]
    exact ⟨b, eraseRange_of_backwards b backwards, rfl⟩

theorem eraseRange_spec (regular : Regular g b.entries.toList) (range : Span) :
    ∃ c removed, b.eraseRange range = .ok (c, removed) ∧ Regular g c.entries.toList := by
  obtain ⟨c, done, entries⟩ := eraseRange_entries regular range
  refine ⟨c, _, done, ?_⟩
  rw [entries]
  exact regular_cutAll regular.ascending regular.good

theorem amount_slot (key : UInt16) {c : Container} (formed : c.WellFormed) :
    amount (slot key c) = c.cardinality := by
  rw [slot]
  split
  · rename_i nothing
    exact (formed.cardinality_eq_zero_iff.mpr (formed.isEmpty_iff.mp nothing)).symm
  · rfl

/-- What is taken from entries is what they have no more. -/
theorem amount_cutAll {range : Span} {entries : List Entry}
    (formed : ∀ e ∈ entries, e.container.WellFormed) :
    amount (cutAll range entries) + lost range entries = amount entries := by
  induction entries with
  | nil => rfl
  | cons e entries ih =>
    obtain ⟨formedHead, formedTail⟩ := List.forall_mem_cons.mp formed
    have changed := (cut_spec range formedHead).2
    have less : (cut range e).cardinality ≤ e.container.cardinality :=
      changed.formed.cardinality_le formedHead fun v kept => ((changed.mem_iff v).mp kept).1
    have rest := ih formedTail
    rw [cutAll_cons, lost_cons, amount_append, amount_cons,
      amount_slot _ changed.formed]
    omega

end Roaring.Bitmap
