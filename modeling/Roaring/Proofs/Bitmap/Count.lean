import Roaring.Bitmap.Count
import Roaring.Proofs.Bitmap.Laws
import Roaring.Proofs.Container.Count

/-! The counts and relations of bitmaps agree with the results of the set algebra. The walks that count
are compared step by step with those that put out entries. -/
namespace Roaring

namespace SetOp

def countBitmaps : SetOp → Bitmap → Bitmap → Checked Nat
  | inter => Bitmap.interCount
  | union => Bitmap.unionCount
  | symmDiff => Bitmap.symmDiffCount
  | diff => Bitmap.diffCount

theorem countBitmaps_eq (op : SetOp) (a b : Bitmap) :
    op.countBitmaps a b =
      (return op.countFrom a.cardinality b.cardinality (← a.interCount b) : Checked Nat) := by
  cases op with
  | inter => exact (bind_pure _).symm
  | union => rfl
  | symmDiff => rfl
  | diff => rfl

end SetOp

namespace Bitmap

variable {g : Grade}

theorem isEmpty_pushNonempty (out : Array Entry) (key : UInt16) (c : Container) :
    (pushNonempty out key c).isEmpty = (out.isEmpty && c.isEmpty) := by
  rw [pushNonempty]
  split
  · rename_i none
    rw [none, Bool.and_true]
  · rename_i some
    rw [Bool.not_eq_true] at some
    simp [some]

theorem cardinality_pushNonempty (out : Array Entry) (key : UInt16) (c : Container)
    (formed : c.WellFormed) :
    (Bitmap.mk (pushNonempty out key c)).cardinality =
      (Bitmap.mk out).cardinality + c.cardinality := by
  rw [pushNonempty]
  split
  · rename_i none
    rw [formed.cardinality_eq_zero_iff.mpr (formed.isEmpty_iff.mp none), Nat.add_zero]
  · simp [cardinality]

/-- A step of the walk that puts out overlaps and a visit of the pair agree on a measure of what is
put out. -/
def Measures {β : Type} (measure : Array Entry → β)
    (visit : β → Container → Container → Checked β) : Prop :=
  ∀ out key c d e, c.WellFormed → d.WellFormed → e.WellFormed → c.inter d = .ok e →
    visit (measure out) c d = .ok (measure (pushNonempty out key e))

theorem measures_cardinality :
    Measures (fun out => (Bitmap.mk out).cardinality)
      (fun n c d => return n + (← c.interCount d)) := by
  intro out key c d e formedC formedD formedE done
  beta_reduce
  have count := of_answer ((Container.counted formedC formedD).counts .inter) done
  change c.interCount d = _ at count
  rw [cardinality_pushNonempty out key e formedE, count]
  rfl

theorem measures_nonempty :
    Measures (fun out => !out.isEmpty)
      (fun found c d => if found then .ok true else c.intersects d) := by
  intro out key c d e formedC formedD formedE done
  have met := of_answer (Container.counted formedC formedD).intersects done
  beta_reduce
  rw [isEmpty_pushNonempty]
  cases out.isEmpty with
  | true => exact met
  | false => rfl

theorem foldCommon_eq {β : Type} {measure : Array Entry → β}
    {visit : β → Container → Container → Checked β} (measures : Measures measure visit)
    (ds es : List Entry) (out all : Array Entry) (regularD : Regular g ds) (regularE : Regular g es)
    (done : interOnto ds es out = .ok all) :
    foldCommon visit ds es (measure out) = .ok (measure all) := by
  induction ds, es, out using interOnto.induct with
  | case1 d ds e es out less ih =>
    rw [interOnto, if_pos less] at done
    rw [foldCommon, if_pos less]
    exact ih regularD.tail regularE done
  | case2 d ds e es out notLess more ih =>
    rw [interOnto, if_neg notLess, if_pos more] at done
    rw [foldCommon, if_neg notLess, if_pos more]
    exact ih regularD regularE.tail done
  | case3 d ds e es out notLess notMore ih =>
    obtain ⟨c, shared, good, -⟩ := onContainers_good .inter regularD.head_good regularE.head_good
    rw [SetOp.onContainers] at shared
    rw [interOnto, if_neg notLess, if_neg notMore, shared] at done
    rw [foldCommon, if_neg notLess, if_neg notMore, measures out d.key _ _ _
      regularD.head_good.formed regularE.head_good.formed good.formed shared]
    exact ih c regularD.tail regularE.tail done
  | case4 ds es out spent =>
    rw [interOnto] at done
    · rw [foldCommon, Except.ok.inj done]
      exact spent
    · exact spent

theorem subsetFrom_spec (ds es : List Entry) (out all : Array Entry) (regularD : Regular g ds)
    (regularE : Regular g es) (done : diffOnto ds es out = .ok all) :
    ∃ within, subsetFrom ds es = .ok within ∧ all.isEmpty = (out.isEmpty && within) := by
  induction ds generalizing es out with
  | nil =>
    rw [diffOnto] at done
    exact ⟨true, rfl, by rw [Except.ok.inj done, Bool.and_true]⟩
  | cons d ds ih =>
    have kept := regularE.dropWhile (fun e => e.key < d.key)
    rw [diffOnto] at done
    rw [subsetFrom]
    rcases partner_spec d.key es regularE with ⟨e, rest, parts, -, found⟩ | ⟨found, -⟩
    · rw [parts] at kept
      obtain ⟨c, left, -⟩ := onContainers_good .diff regularD.head_good kept.head_good
      have left : d.container.diff e.container = .ok c := left
      have within := of_answer
        (Container.counted regularD.head_good.formed kept.head_good.formed).isSubset left
      simp only [found, left] at done
      obtain ⟨later, walked, rest⟩ := ih _ _ regularD.tail
        (regularE.dropWhile (fun e => e.key < d.key)) done
      rw [isEmpty_pushNonempty] at rest
      simp only [found, within]
      cases none : c.isEmpty with
      | true => exact ⟨later, walked, by rw [rest, none, Bool.and_true]⟩
      | false => exact ⟨false, rfl, by rw [rest, none, Bool.and_false, Bool.false_and]⟩
    · simp only [found] at done ⊢
      obtain ⟨later, -, rest⟩ := ih _ _ regularD.tail
        (regularE.dropWhile (fun e => e.key < d.key)) done
      rw [isEmpty_pushNonempty, regularD.nonempty d List.mem_cons_self] at rest
      exact ⟨false, rfl, by rw [rest, Bool.and_false, Bool.false_and]⟩

variable {a b e : Bitmap}

def valueSet (b : Bitmap) : Finset UInt32 := b.values.toList.toFinset

namespace WellFormed

theorem mem_valueSet (formed : b.WellFormed) (v : UInt32) : v ∈ b.valueSet ↔ b.Has v := by
  rw [valueSet, List.mem_toFinset, Array.mem_toList_iff]
  exact formed.mem_members v

theorem card_valueSet (formed : b.WellFormed) : b.valueSet.card = b.cardinality := by
  have regular := wellFormed_iff.mp formed
  have distinct := (values_ascending regular).imp UInt32.ne_of_lt
  rw [valueSet, List.toFinset_card_of_nodup distinct, Array.length_toList,
    size_values fun _ member => (regular.good _ member).formed]

end WellFormed

theorem walk_of_bitmap {walk : Checked (Array Entry)}
    (done : (walk >>= fun entries => pure ⟨entries⟩) = .ok e) : walk = .ok e.entries := by
  cases walk with
  | error fault => cases done
  | ok all => rw [← Except.ok.inj done]

theorem card_onBitmaps (op : SetOp) (formedA : a.WellFormed) (formedB : b.WellFormed)
    (done : op.onBitmaps a b = .ok e) :
    e.cardinality = op.countFrom a.cardinality b.cardinality (a.valueSet ∩ b.valueSet).card := by
  obtain ⟨regular, holds⟩ :=
    of_answer (onBitmaps_spec op (wellFormed_iff.mp formedA) (wellFormed_iff.mp formedB)) done
  have formed : e.WellFormed := wellFormed_iff.mpr regular
  rw [← formed.card_valueSet, ← formedA.card_valueSet, ← formedB.card_valueSet]
  apply op.card_eq_countFrom
  intro v
  rw [formed.mem_valueSet, formedA.mem_valueSet, formedB.mem_valueSet]
  exact holds (split v).1 (split v).2

structure Counted (a b : Bitmap) : Prop where
  counts : ∀ op : SetOp, ∃ e, op.onBitmaps a b = .ok e ∧
    op.countBitmaps a b = .ok e.cardinality
  intersects : ∃ e, a.inter b = .ok e ∧ a.intersects b = .ok (!e.isEmpty)
  isSubset : ∃ e, a.diff b = .ok e ∧ a.isSubset b = .ok e.isEmpty
  remains : ∃ n, a.interCount b = .ok n ∧ n ≤ a.cardinality + b.cardinality ∧
    2 * n ≤ a.cardinality + b.cardinality ∧ n ≤ a.cardinality

theorem counted (formedA : a.WellFormed) (formedB : b.WellFormed) : a.Counted b := by
  have regularA := wellFormed_iff.mp formedA
  have regularB := wellFormed_iff.mp formedB
  obtain ⟨common, shared, -⟩ := onBitmaps_spec .inter regularA regularB
  obtain ⟨rest, left, -⟩ := onBitmaps_spec .diff regularA regularB
  have walked := walk_of_bitmap shared
  have count : a.interCount b = .ok common.cardinality :=
    foldCommon_eq measures_cardinality _ _ #[] _ regularA regularB walked
  rw [card_onBitmaps .inter formedA formedB shared] at count
  constructor
  case counts =>
    intro op
    obtain ⟨e, done, -⟩ := onBitmaps_spec op regularA regularB
    refine ⟨e, done, ?_⟩
    rw [op.countBitmaps_eq, count, card_onBitmaps op formedA formedB done]
    rfl
  case intersects =>
    exact ⟨common, shared, foldCommon_eq measures_nonempty _ _ #[] _ regularA regularB walked⟩
  case isSubset =>
    obtain ⟨within, answered, empty⟩ :=
      subsetFrom_spec _ _ #[] _ regularA regularB (walk_of_bitmap left)
    refine ⟨rest, left, answered.trans (congrArg Except.ok ?_)⟩
    exact (empty.trans (Bool.true_and within)).symm
  case remains =>
    have remains := SetOp.card_inter_remains a.valueSet b.valueSet
    rw [formedA.card_valueSet, formedB.card_valueSet] at remains
    exact ⟨_, count, remains⟩

/-- The counting short cuts agree with the results of the algebra, on containers of any encodings and
on bitmaps. -/
theorem counts_agree :
    (∀ c d : Container, c.WellFormed → d.WellFormed → c.Counted d) ∧
      ∀ a b : Bitmap, a.WellFormed → b.WellFormed → a.Counted b :=
  ⟨fun _ _ => Container.counted, fun _ _ => counted⟩

/-- A run that a list reaches into, alone and next to keys of one side only. -/
theorem counts_agree_partly :
    let run := Container.runs ⟨#[⟨10, 9⟩]⟩
    let list := Container.array ⟨#[5, 12, 19, 20]⟩
    let a : Bitmap := ⟨#[⟨0, run⟩, ⟨9, run⟩]⟩
    let b : Bitmap := ⟨#[⟨3, list⟩, ⟨9, list⟩]⟩
    run.WellFormed ∧ list.WellFormed ∧ a.WellFormed ∧ b.WellFormed ∧
      run.Counted list ∧ a.Counted b := by
  intro run list a b
  have formedRun : run.WellFormed := by decide
  have formedList : list.WellFormed := by decide
  have formedA : a.WellFormed := by decide
  have formedB : b.WellFormed := by decide
  obtain ⟨containers, bitmaps⟩ := counts_agree
  exact ⟨formedRun, formedList, formedA, formedB, containers _ _ formedRun formedList,
    bitmaps _ _ formedA formedB⟩

end Bitmap

end Roaring
