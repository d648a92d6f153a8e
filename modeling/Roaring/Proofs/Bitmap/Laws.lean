import Mathlib.Data.Set.BooleanAlgebra
import Mathlib.Order.CompletePartialOrder
import Roaring.Proofs.Bitmap.Algebra
import Roaring.Proofs.Bitmap.Values

/-! Bitmap algebra is set algebra on values. The laws of the operations are those of sets, read through
the comparison of bitmaps, which does not see encodings. -/
namespace Roaring

namespace SetOp

variable {α : Type} {op : SetOp}

theorem onSets_comm (other : op ≠ .diff) (s t : Set α) : op.onSets s t = op.onSets t s := by
  cases op with
  | inter => exact Set.inter_comm s t
  | union => exact Set.union_comm s t
  | symmDiff => exact Set.union_comm _ _
  | diff => contradiction

theorem onSets_assoc (other : op ≠ .diff) (s t u : Set α) :
    op.onSets (op.onSets s t) u = op.onSets s (op.onSets t u) := by
  cases op with
  | inter => exact Set.inter_assoc s t u
  | union => exact Set.union_assoc s t u
  | symmDiff =>
    ext x
    simp only [mem_onSets, Keeps]
    tauto
  | diff => contradiction

end SetOp

namespace Bitmap

variable {a b c : Bitmap}

def members (b : Bitmap) : Set UInt32 := {v | v ∈ b.values}

theorem WellFormed.mem_members (formed : b.WellFormed) (v : UInt32) : v ∈ b.members ↔ b.Has v :=
  mem_values (fun _ member => ((wellFormed_iff.mp formed).good _ member).formed) v

theorem WellFormed.sameValues_iff_members (formedA : a.WellFormed) (formedB : b.WellFormed) :
    a.sameValues b = true ↔ a.members = b.members := by
  rw [sameValues_iff (wellFormed_iff.mp formedA) (wellFormed_iff.mp formedB), Set.ext_iff]
  rfl

theorem WellFormed.isEmpty_iff_members (formed : b.WellFormed) :
    b.isEmpty = true ↔ b.members = ∅ := by
  have regular := wellFormed_iff.mp formed
  rw [isEmpty_iff regular, ← size_values fun _ member => (regular.good _ member).formed,
    Array.size_eq_zero_iff, Array.eq_empty_iff_forall_not_mem, Set.eq_empty_iff_forall_notMem]
  rfl

/-- The computation answers, with a well-formed bitmap of the given values. -/
def Yields (result : Checked Bitmap) (values : Set UInt32) : Prop :=
  ∃ x, result = .ok x ∧ x.WellFormed ∧ x.members = values

/-- Both computations answer, and their answers compare as equal. -/
def Agree (first second : Checked Bitmap) : Prop :=
  ∃ x y, first = .ok x ∧ second = .ok y ∧ x.sameValues y = true

theorem Yields.agree {first second : Checked Bitmap} {values : Set UInt32}
    (one : Yields first values) (other : Yields second values) : Agree first second := by
  obtain ⟨x, doneX, formedX, membersX⟩ := one
  obtain ⟨y, doneY, formedY, membersY⟩ := other
  refine ⟨x, y, doneX, doneY, (formedX.sameValues_iff_members formedY).mpr ?_⟩
  rw [membersX, membersY]

theorem yields_onBitmaps (op : SetOp) (formedA : a.WellFormed) (formedB : b.WellFormed) :
    Yields (op.onBitmaps a b) (op.onSets a.members b.members) := by
  obtain ⟨c, done, regular, holds⟩ :=
    onBitmaps_spec op (wellFormed_iff.mp formedA) (wellFormed_iff.mp formedB)
  have formedC := wellFormed_iff.mpr regular
  refine ⟨c, done, formedC, ?_⟩
  ext v
  rw [SetOp.mem_onSets, formedA.mem_members, formedB.mem_members, formedC.mem_members]
  exact holds _ _

theorem Yields.bind {result : Checked Bitmap} {next : Bitmap → Checked Bitmap}
    {values values' : Set UInt32} (first : Yields result values)
    (second : ∀ x : Bitmap, x.WellFormed → x.members = values → Yields (next x) values') :
    Yields (result >>= next) values' := by
  obtain ⟨x, done, formed, members⟩ := first
  rw [done]
  exact second x formed members

theorem yields_left (op : SetOp) (formedA : a.WellFormed) (formedB : b.WellFormed)
    (formedC : c.WellFormed) :
    Yields (op.onBitmaps a b >>= fun ab => op.onBitmaps ab c)
      (op.onSets (op.onSets a.members b.members) c.members) := by
  apply (yields_onBitmaps op formedA formedB).bind
  intro x formedX membersX
  rw [← membersX]
  exact yields_onBitmaps op formedX formedC

theorem yields_right (op : SetOp) (formedA : a.WellFormed) (formedB : b.WellFormed)
    (formedC : c.WellFormed) :
    Yields (op.onBitmaps b c >>= fun bc => op.onBitmaps a bc)
      (op.onSets a.members (op.onSets b.members c.members)) := by
  apply (yields_onBitmaps op formedB formedC).bind
  intro x formedX membersX
  rw [← membersX]
  exact yields_onBitmaps op formedA formedX

theorem Yields.isEmpty {result : Checked Bitmap} (yields : Yields result ∅) :
    ∃ x, result = .ok x ∧ x.isEmpty = true := by
  obtain ⟨x, done, formed, members⟩ := yields
  exact ⟨x, done, formed.isEmpty_iff_members.mpr members⟩

/-- On well-formed bitmaps every operation answers with the values that the operation on sets keeps,
and with a well-formed bitmap again. Hence the laws of sets hold of bitmaps. -/
theorem members_onBitmaps (a b c : Bitmap) (formedA : a.WellFormed) (formedB : b.WellFormed)
    (formedC : c.WellFormed) :
    (∀ op : SetOp, Yields (op.onBitmaps a b) (op.onSets a.members b.members)) ∧
      (∀ op : SetOp, op ≠ .diff → Agree (op.onBitmaps a b) (op.onBitmaps b a)) ∧
      (∀ op : SetOp, op ≠ .diff →
        Agree (op.onBitmaps a b >>= fun ab => op.onBitmaps ab c)
          (op.onBitmaps b c >>= fun bc => op.onBitmaps a bc)) ∧
      Agree (a.union a) (.ok a) ∧
      (∃ x, a.symmDiff a = .ok x ∧ x.isEmpty = true) ∧
      ∃ x, a.diff b = .ok x ∧ Disjoint x.members b.members ∧
        ∃ y, x.inter b = .ok y ∧ y.isEmpty = true := by
  refine ⟨fun op => yields_onBitmaps op formedA formedB, fun op other => ?_, fun op other => ?_,
    ?_, ?_, ?_⟩
  · have flipped := yields_onBitmaps op formedB formedA
    rw [SetOp.onSets_comm other] at flipped
    exact (yields_onBitmaps op formedA formedB).agree flipped
  · have left := yields_left op formedA formedB formedC
    rw [SetOp.onSets_assoc other] at left
    exact left.agree (yields_right op formedA formedB formedC)
  · -- the operand itself is one of the answers that agree
    have joined := yields_onBitmaps .union formedA formedA
    rw [SetOp.onSets, Set.union_self] at joined
    exact joined.agree ⟨a, rfl, formedA, rfl⟩
  · have cancelled := yields_onBitmaps .symmDiff formedA formedA
    rw [SetOp.onSets, Set.sdiff_self, Set.union_self] at cancelled
    exact cancelled.isEmpty
  · obtain ⟨x, done, formedX, members⟩ := yields_onBitmaps .diff formedA formedB
    have apart : Disjoint x.members b.members := by
      rw [members]
      exact Set.disjoint_sdiff_left
    have common := yields_onBitmaps .inter formedX formedB
    rw [SetOp.onSets, apart.inter_eq] at common
    exact ⟨x, done, apart, common.isEmpty⟩

/-- A list, sparse bits and the run of all values, under common and under lone keys. -/
theorem members_onBitmaps_mixed :
    let a : Bitmap := ⟨#[⟨0, .array ⟨#[1, 7]⟩⟩, ⟨65535, .runs ⟨#[⟨0, 65535⟩]⟩⟩]⟩
    let b : Bitmap := ⟨#[⟨0, .bits (.ofSortedValues #[0, 7])⟩]⟩
    let c : Bitmap := ⟨#[⟨3, .runs ⟨#[⟨9, 4⟩]⟩⟩, ⟨65535, .array ⟨#[65535]⟩⟩]⟩
    a.WellFormed ∧ b.WellFormed ∧ c.WellFormed ∧ Agree (a.union b) (b.union a) ∧
      Agree (a.symmDiff b >>= fun ab => ab.symmDiff c) (b.symmDiff c >>= fun bc => a.symmDiff bc) ∧
      ∃ x, a.diff b = .ok x ∧ Disjoint x.members b.members := by
  intro a b c
  have formedA : a.WellFormed := by decide
  have formedC : c.WellFormed := by decide
  have sparse : (Container.bits (.ofSortedValues #[0, 7])).WellFormed := BitSet.wellFormed_ofWords _
  have held : (7 : UInt16) ∈ Container.bits (.ofSortedValues #[0, 7]) :=
    (BitSet.mem_ofSortedValues _ _).mpr (by simp)
  have formedB : b.WellFormed := wellFormed_iff.mpr
    (regular_singleton _ sparse (Container.isEmpty_eq_false sparse 7 held))
  obtain ⟨-, comm, assoc, -, -, x, done, apart, -⟩ := members_onBitmaps a b c formedA formedB formedC
  exact ⟨formedA, formedB, formedC, comm .union (by decide), assoc .symmDiff (by decide), x, done,
    apart⟩

end Bitmap

end Roaring
