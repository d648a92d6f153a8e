import Roaring.Bitmap.Algebra
import Roaring.Proofs.Bitmap.Entries

/-! Bitmap algebra, key by key. The walks keep both lists in step, and what is put out so far holds
smaller keys than what is to come. -/
namespace Roaring

namespace Bitmap

variable {g : Grade}

theorem onContainers_good (op : SetOp) {c d : Container} (goodC : g.Good c) (goodD : g.Good d) :
    ∃ e, op.onContainers c d = .ok e ∧ g.Good e ∧ ∀ v, v ∈ e ↔ op.Keeps (v ∈ c) (v ∈ d) := by
  obtain ⟨e, done, formed, mem, -, canonical⟩ :=
    Container.operation_spec op goodC.formed goodD.formed
  exact ⟨e, done, goodC.step formed canonical, mem⟩

/-- The keys of two heads are the same when neither is smaller. -/
theorem key_eq {d e : Entry} (notLess : ¬ d.key < e.key) (notMore : ¬ e.key < d.key) :
    d.key = e.key :=
  UInt16.le_antisymm (UInt16.not_lt.mp notMore) (UInt16.not_lt.mp notLess)

theorem interOnto_spec (ds es : List Entry) (out : Array Entry) (regularD : Regular g ds)
    (regularE : Regular g es) :
    Adds g (interOnto ds es out) out (fun k v => Holds ds k v ∧ Holds es k v) := by
  induction ds, es, out using interOnto.induct with
  | case1 d ds e es out less ih =>
    rw [interOnto, if_pos less]
    apply (ih regularD.tail regularE).congr
    intro k v
    by_cases here : d.key = k
    · subst here
      simp [regularE.not_holds_below less v]
    · rw [holds_other here]
  | case2 d ds e es out notLess more ih =>
    rw [interOnto, if_neg notLess, if_pos more]
    apply (ih regularD regularE.tail).congr
    intro k v
    by_cases here : e.key = k
    · subst here
      simp [regularD.not_holds_below more v]
    · rw [holds_other here]
  | case3 d ds e es out notLess notMore ih =>
    have same := key_eq notLess notMore
    obtain ⟨c, done, good, mem⟩ := onContainers_good .inter regularD.head_good regularE.head_good
    rw [interOnto, if_neg notLess, if_neg notMore]
    change Adds g (SetOp.inter.onContainers d.container e.container >>= _) _ _
    rw [done]
    apply Adds.push good (ih c regularD.tail regularE.tail)
    · exact fun k v both => regularD.head_lt both.1
    · intro k v
      by_cases here : d.key = k
      · subst here
        have absent := regularD.not_holds_tail v
        rw [regularD.holds_head, same, regularE.holds_head, mem]
        simp [← same, absent, SetOp.Keeps]
      · rw [holds_other here, holds_other (fun other => here (same.trans other))]
        simp [here]
  | case4 ds es out none =>
    cases ds with
    | nil =>
      rw [interOnto]
      · exact adds_nothing out _ (by simp)
      · simp
    | cons d ds =>
      cases es with
      | nil =>
        rw [interOnto]
        · exact adds_nothing out _ (by simp)
        · simp
      | cons e es => exact absurd rfl (none d ds e es rfl)

/-- Operations that leave a lone container as it is. -/
def SideKeeping (op : SetOp) : Prop := ∀ p, (op.Keeps p False ↔ p) ∧ (op.Keeps False p ↔ p)

theorem sideKeeping_union : SideKeeping .union := by
  simp [SideKeeping, SetOp.Keeps]

theorem sideKeeping_symmDiff : SideKeeping .symmDiff := by
  simp [SideKeeping, SetOp.Keeps]

theorem lt_of_keeps {op : SetOp} {ds es : List Entry} {key k v : UInt16}
    (first : ∀ k v, Holds ds k v → key < k) (second : ∀ k v, Holds es k v → key < k)
    (kept : op.Keeps (Holds ds k v) (Holds es k v)) : key < k := by
  rcases kept.either with inFirst | inSecond
  · exact first k v inFirst
  · exact second k v inSecond

theorem mergeOnto_spec (op : SetOp) (keeping : SideKeeping op) (ds es : List Entry)
    (out : Array Entry) (regularD : Regular g ds) (regularE : Regular g es) :
    Adds g (mergeOnto op.onContainers ds es out) out
      (fun k v => op.Keeps (Holds ds k v) (Holds es k v)) := by
  induction ds, es, out using mergeOnto.induct with
  | case1 es out =>
    rw [mergeOnto]
    exact (adds_all out es regularE).congr fun k v => by simp [(keeping _).2]
  | case2 ds out some =>
    rw [mergeOnto]
    · exact (adds_all out ds regularD).congr fun k v => by simp [(keeping _).1]
    · exact some
  | case3 d ds e es out less ih =>
    rw [mergeOnto, if_pos less]
    apply (ih regularD.tail regularE).push regularD.head_good
    · intro k v kept
      apply lt_of_keeps (fun k v later => regularD.head_lt later) _ kept
      exact fun k v later => regularE.lt_of_holds less later
    · intro k v
      by_cases here : d.key = k
      · subst here
        have absent := regularD.not_holds_tail v
        rw [regularD.holds_head]
        simp [regularE.not_holds_below less v, absent, (keeping _).1]
      · rw [holds_other here]
        simp [here]
  | case4 d ds e es out notLess more ih =>
    rw [mergeOnto, if_neg notLess, if_pos more]
    apply (ih regularD regularE.tail).push regularE.head_good
    · intro k v kept
      apply lt_of_keeps _ (fun k v later => regularE.head_lt later) kept
      exact fun k v later => regularD.lt_of_holds more later
    · intro k v
      by_cases here : e.key = k
      · subst here
        have absent := regularE.not_holds_tail v
        rw [regularE.holds_head]
        simp [regularD.not_holds_below more v, absent, (keeping _).2]
      · rw [holds_other here]
        simp [here]
  | case5 d ds e es out notLess notMore ih =>
    have same := key_eq notLess notMore
    obtain ⟨c, done, good, mem⟩ := onContainers_good op regularD.head_good regularE.head_good
    rw [mergeOnto, if_neg notLess, if_neg notMore, done]
    apply Adds.push good (ih c regularD.tail regularE.tail)
    · intro k v kept
      apply lt_of_keeps (fun k v later => regularD.head_lt later) _ kept
      intro k v later
      rw [same]
      exact regularE.head_lt later
    · intro k v
      by_cases here : d.key = k
      · subst here
        have absent := regularD.not_holds_tail v
        have absentE : ¬ Holds es d.key v := same ▸ regularE.not_holds_tail v
        rw [regularD.holds_head, same, regularE.holds_head, mem]
        simp [← same, absent, absentE, (keeping _).1]
      · rw [holds_other here, holds_other (fun other => here (same.trans other))]
        simp [here]

/-- After the smaller keys are dropped, the first entry is the partner of a key, or it has none. -/
theorem partner_spec (key : UInt16) (es : List Entry) (regular : Regular g es) :
    (∃ e rest, es.dropWhile (fun e => e.key < key) = e :: rest ∧ e.key = key ∧
        (es.dropWhile (fun e => e.key < key)).head?.filter (fun e => e.key == key) = some e) ∨
      ((es.dropWhile (fun e => e.key < key)).head?.filter (fun e => e.key == key) = none ∧
        ∀ v, ¬ Holds es key v) := by
  have kept := regular.dropWhile (fun e => e.key < key)
  have holds := holds_dropWhile es key (UInt16.lt_irrefl key)
  have first := List.head?_dropWhile_not (fun e : Entry => decide (e.key < key)) es
  generalize es.dropWhile (fun e => e.key < key) = left at *
  cases left with
  | nil => exact Or.inr ⟨rfl, fun v held => by simpa using (holds v).mpr held⟩
  | cons e rest =>
    rw [List.head?_cons] at *
    simp only [decide_eq_false_iff_not] at first
    by_cases same : e.key = key
    · exact Or.inl ⟨e, rest, rfl, same, by simp [same]⟩
    · refine Or.inr ⟨by simp [same], fun v held => ?_⟩
      have above := UInt16.lt_of_le_of_ne (UInt16.not_lt.mp first) (Ne.symm same)
      exact kept.not_holds_below above v ((holds v).mpr held)

theorem diffOnto_spec (ds es : List Entry) (out : Array Entry) (regularD : Regular g ds)
    (regularE : Regular g es) :
    Adds g (diffOnto ds es out) out (fun k v => Holds ds k v ∧ ¬ Holds es k v) := by
  induction ds generalizing es out with
  | nil =>
    rw [diffOnto]
    exact adds_nothing out _ (by simp)
  | cons d ds ih =>
    have kept := regularE.dropWhile (fun e => e.key < d.key)
    have later (k v : UInt16) (held : Holds ds k v) :
        Holds (es.dropWhile (fun e => e.key < d.key)) k v ↔ Holds es k v :=
      holds_dropWhile es d.key (fun less => UInt16.lt_asymm less (regularD.head_lt held)) v
    have absent := regularD.not_holds_tail
    have heldBy := holds_dropWhile es d.key (UInt16.lt_irrefl d.key)
    rw [diffOnto]
    rcases partner_spec d.key es regularE with ⟨e, rest, parts, same, found⟩ | ⟨found, none⟩
    · rw [parts] at kept
      obtain ⟨c, done, good, mem⟩ := onContainers_good .diff regularD.head_good kept.head_good
      rw [found]
      change Adds g (SetOp.diff.onContainers d.container e.container >>= _) _ _
      rw [done]
      have restAdds := ih _ (pushNonempty out d.key c) regularD.tail
        (regularE.dropWhile (fun e => e.key < d.key))
      apply restAdds.push good
      · exact fun k v held => regularD.head_lt held.1
      · intro k v
        by_cases here : d.key = k
        · subst here
          rw [regularD.holds_head, ← heldBy, parts, ← same, kept.holds_head, mem]
          simp [same, absent, SetOp.Keeps]
        · rw [holds_other here]
          simp only [here, false_and, false_or]
          exact and_congr_right fun held => not_congr (later k v held).symm
    · rw [found]
      have restAdds := ih _ (pushNonempty out d.key d.container) regularD.tail
        (regularE.dropWhile (fun e => e.key < d.key))
      apply restAdds.push regularD.head_good
      · exact fun k v held => regularD.head_lt held.1
      · intro k v
        by_cases here : d.key = k
        · subst here
          rw [regularD.holds_head]
          simp [absent, none]
        · rw [holds_other here]
          simp only [here, false_and, false_or]
          exact and_congr_right fun held => not_congr (later k v held).symm

/-! The walks that change the first bitmap put out the same. -/

theorem mergeOnto_nil (combine : Container → Container → Checked Container) (ds : List Entry)
    (out : Array Entry) : mergeOnto combine ds [] out = .ok (appendNonempty out ds) := by
  cases ds with
  | nil => rw [mergeOnto]
  | cons d ds =>
    rw [mergeOnto]
    simp

theorem mergeInPlaceOnto_eq (combine : Container → Container → Checked Container)
    (ds es : List Entry) (out : Array Entry) :
    mergeInPlaceOnto combine ds es out = mergeOnto combine ds es out := by
  induction ds generalizing es out with
  | nil => rw [mergeInPlaceOnto, mergeOnto]
  | cons d ds ih =>
    induction es generalizing out with
    | nil =>
      rw [mergeInPlaceOnto, List.takeWhile_nil, List.dropWhile_nil, ih, mergeOnto_nil, mergeOnto_nil]
      rfl
    | cons e es ihE =>
      by_cases more : e.key < d.key
      · have notLess : ¬ d.key < e.key := UInt16.lt_asymm more
        rw [mergeOnto, if_neg notLess, if_pos more, ← ihE, mergeInPlaceOnto, mergeInPlaceOnto]
        simp [more, appendNonempty]
      · rw [mergeInPlaceOnto]
        simp only [List.takeWhile_cons, List.dropWhile_cons, more, decide_false,
          Bool.false_eq_true, if_false]
        by_cases same : e.key = d.key
        · rw [if_pos same, mergeOnto, if_neg (by rw [same]; exact UInt16.lt_irrefl _),
            if_neg more]
          simp only [ih, appendNonempty, List.foldl_nil]
        · have less := UInt16.lt_of_le_of_ne (UInt16.not_lt.mp more) (Ne.symm same)
          rw [if_neg same, mergeOnto, if_pos less, ih]
          rfl

theorem interOnto_nil (ds : List Entry) (out : Array Entry) : interOnto ds [] out = .ok out := by
  rw [interOnto]
  simp

/-- Entries below all of the first list have no partner. -/
theorem interOnto_skip (ds es : List Entry) (e : Entry) (out : Array Entry)
    (behind : ∀ d ∈ ds, e.key < d.key) : interOnto ds (e :: es) out = interOnto ds es out := by
  cases ds with
  | nil =>
    rw [interOnto, interOnto]
    · simp
    · simp
  | cons d ds =>
    have more := behind d List.mem_cons_self
    rw [interOnto, if_neg (UInt16.lt_asymm more), if_pos more]

theorem interInPlaceOnto_eq (ds es : List Entry) (out : Array Entry)
    (ascending : ds.Pairwise (fun d e => d.key < e.key)) :
    interInPlaceOnto ds es out = interOnto ds es out := by
  induction ds generalizing es out with
  | nil =>
    rw [interInPlaceOnto, interOnto]
    simp
  | cons d ds ih =>
    obtain ⟨behind, rest⟩ := List.pairwise_cons.mp ascending
    induction es generalizing out with
    | nil =>
      rw [interInPlaceOnto, interOnto_nil]
      simp only [List.dropWhile_nil, List.head?_nil, Option.filter_none]
      rw [ih _ _ rest, interOnto_nil]
    | cons e es ihE =>
      by_cases more : e.key < d.key
      · have notLess : ¬ d.key < e.key := UInt16.lt_asymm more
        rw [interOnto, if_neg notLess, if_pos more, ← ihE, interInPlaceOnto, interInPlaceOnto]
        simp [more]
      · rw [interInPlaceOnto]
        simp only [List.dropWhile_cons, more, decide_false, Bool.false_eq_true, if_false,
          List.head?_cons]
        by_cases same : e.key = d.key
        · have found : (some e).filter (fun e => e.key == d.key) = some e := by simp [same]
          rw [found, interOnto, if_neg (by rw [same]; exact UInt16.lt_irrefl _), if_neg more]
          simp only
          have equal := Container.inContainer_eq .inter d.container e.container
          simp only [SetOp.inContainer, SetOp.onContainers] at equal
          rw [equal]
          congr 1
          funext c
          rw [ih _ _ rest, interOnto_skip _ _ _ _ fun x member => by
            rw [same]
            exact behind x member]
        · have found : (some e).filter (fun e => e.key == d.key) = none := by simp [same]
          have less := UInt16.lt_of_le_of_ne (UInt16.not_lt.mp more) (Ne.symm same)
          rw [found, interOnto, if_pos less]
          exact ih _ _ rest

theorem diffInPlaceOnto_eq (ds es : List Entry) (out : Array Entry) :
    diffInPlaceOnto ds es out = diffOnto ds es out := by
  induction ds generalizing es out with
  | nil => rw [diffInPlaceOnto, diffOnto]
  | cons d ds ih =>
    rw [diffInPlaceOnto, diffOnto]
    simp only [ih]
    cases (es.dropWhile fun e => e.key < d.key).head?.filter fun e => e.key == d.key with
    | none => rfl
    | some e =>
      exact congrArg (· >>= fun c => diffOnto ds _ (pushNonempty out d.key c))
        (Container.inContainer_eq .diff d.container e.container)

end Bitmap

namespace SetOp

def onBitmaps : SetOp → Bitmap → Bitmap → Checked Bitmap
  | inter => Bitmap.inter
  | union => Bitmap.union
  | symmDiff => Bitmap.symmDiff
  | diff => Bitmap.diff

def inBitmap : SetOp → Bitmap → Bitmap → Checked Bitmap
  | inter => Bitmap.interInPlace
  | union => Bitmap.unionInPlace
  | symmDiff => Bitmap.symmDiffInPlace
  | diff => Bitmap.diffInPlace

end SetOp

namespace Bitmap

/-- Every operation answers, with regular entries that hold what the operation keeps. -/
theorem onBitmaps_spec (op : SetOp) {a b : Bitmap} (regularA : Regular g a.entries.toList)
    (regularB : Regular g b.entries.toList) :
    ∃ c, op.onBitmaps a b = .ok c ∧ Regular g c.entries.toList ∧
      ∀ k v, Holds c.entries.toList k v ↔
        op.Keeps (Holds a.entries.toList k v) (Holds b.entries.toList k v) := by
  cases op with
  | inter => exact (interOnto_spec _ _ _ regularA regularB).bitmap
  | union => exact (mergeOnto_spec .union sideKeeping_union _ _ _ regularA regularB).bitmap
  | symmDiff =>
    exact (mergeOnto_spec .symmDiff sideKeeping_symmDiff _ _ _ regularA regularB).bitmap
  | diff => exact (diffOnto_spec _ _ _ regularA regularB).bitmap

theorem inBitmap_eq (op : SetOp) (a b : Bitmap)
    (ascending : a.entries.toList.Pairwise (fun d e => d.key < e.key)) :
    op.inBitmap a b = op.onBitmaps a b := by
  have inContainer (op : SetOp) : op.inContainer = op.onContainers := by
    funext c d
    exact Container.inContainer_eq op c d
  cases op with
  | inter =>
    rw [SetOp.inBitmap, SetOp.onBitmaps, interInPlace, inter, interInPlaceOnto_eq _ _ _ ascending]
  | union =>
    rw [SetOp.inBitmap, SetOp.onBitmaps, unionInPlace, union, mergeInPlaceOnto_eq]
    exact congrArg (fun combine => mergeOnto combine _ _ _ >>= _) (inContainer .union)
  | symmDiff =>
    rw [SetOp.inBitmap, SetOp.onBitmaps, symmDiffInPlace, symmDiff, mergeInPlaceOnto_eq]
    exact congrArg (fun combine => mergeOnto combine _ _ _ >>= _) (inContainer .symmDiff)
  | diff =>
    rw [SetOp.inBitmap, SetOp.onBitmaps, diffInPlace, diff, diffInPlaceOnto_eq]

/-- The operations that change their first operand answer, and they leave in it what the copying
ones hand out: the same keys, encodings, values, words with their kept cardinality and runs. -/
theorem inPlace_eq_copying (op : SetOp) :
    (∀ c d : Container, c.WellFormed → d.WellFormed →
      ∃ e, op.onContainers c d = .ok e ∧ op.inContainer c d = .ok e) ∧
    ∀ a b : Bitmap, a.WellFormed → b.WellFormed →
      ∃ c, op.onBitmaps a b = .ok c ∧ op.inBitmap a b = .ok c := by
  constructor
  · intro c d formedC formedD
    obtain ⟨e, done, -⟩ := Container.operation_spec op formedC formedD
    exact ⟨e, done, (Container.inContainer_eq op c d).trans done⟩
  · intro a b formedA formedB
    obtain ⟨c, done, -⟩ :=
      onBitmaps_spec op (wellFormed_iff.mp formedA) (wellFormed_iff.mp formedB)
    exact ⟨c, done, (inBitmap_eq op a b formedA.ascending).trans done⟩

/-- Sparse bits and runs under a common key, next to keys of one side only. -/
theorem inPlace_eq_copying_sparse :
    let sparse := Container.bits (.ofSortedValues #[0, 65535])
    let a : Bitmap := ⟨#[⟨0, .array ⟨#[1, 7]⟩⟩, ⟨9, .runs ⟨#[⟨0, 65534⟩]⟩⟩]⟩
    let b : Bitmap := ⟨#[⟨3, .array ⟨#[5]⟩⟩, ⟨9, .array ⟨#[4, 65535]⟩⟩]⟩
    sparse.WellFormed ∧ a.WellFormed ∧ b.WellFormed ∧
      (∃ e, SetOp.symmDiff.onContainers sparse (.runs ⟨#[⟨0, 65534⟩]⟩) = .ok e ∧
        SetOp.symmDiff.inContainer sparse (.runs ⟨#[⟨0, 65534⟩]⟩) = .ok e) ∧
      ∃ c, SetOp.symmDiff.onBitmaps a b = .ok c ∧ SetOp.symmDiff.inBitmap a b = .ok c := by
  intro sparse a b
  have formed : sparse.WellFormed := BitSet.wellFormed_ofWords _
  have formedA : a.WellFormed := by decide
  have formedB : b.WellFormed := by decide
  obtain ⟨containers, bitmaps⟩ := inPlace_eq_copying .symmDiff
  exact ⟨formed, formedA, formedB, containers _ _ formed (Run.canonical_singleton _ (by decide)),
    bitmaps a b formedA formedB⟩

end Bitmap

end Roaring
