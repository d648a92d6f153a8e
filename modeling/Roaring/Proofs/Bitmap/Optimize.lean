import Mathlib.Data.List.Forall2
import Roaring.Bitmap.Optimize
import Roaring.Proofs.Bitmap.Update

/-! Passes over a bitmap that re-encode containers one by one and leave keys and values alone. -/
namespace Roaring

/-- A pass that answers for every element answers for all of them. -/
theorem mapM_ok {α β : Type} (related : α → β → Prop) (change : α → Checked β) (xs : List α)
    (each : ∀ x ∈ xs, ∃ y, change x = .ok y ∧ related x y) :
    ∃ ys, xs.mapM change = .ok ys ∧ List.Forall₂ related xs ys := by
  induction xs with
  | nil => exact ⟨[], rfl, List.Forall₂.nil⟩
  | cons x xs ih =>
    obtain ⟨y, done, fits⟩ := each x List.mem_cons_self
    obtain ⟨ys, rest, fit⟩ := ih fun z member => each z (List.mem_cons_of_mem _ member)
    refine ⟨y :: ys, ?_, List.Forall₂.cons fits fit⟩
    rw [List.mapM_cons, done, rest]
    rfl

theorem array_mapM_ok {α β : Type} (related : α → β → Prop) (change : α → Checked β)
    (xs : Array α) (each : ∀ x ∈ xs, ∃ y, change x = .ok y ∧ related x y) :
    ∃ ys, xs.mapM change = .ok ys ∧ List.Forall₂ related xs.toList ys.toList := by
  obtain ⟨ys, done, fit⟩ := mapM_ok related change xs.toList fun x member =>
    each x (Array.mem_toList_iff.mp member)
  refine ⟨ys.toArray, ?_, fit⟩
  rw [Array.mapM_eq_mapM_toList, done]
  rfl

theorem zip_map_self {α β : Type} (xs : Array α) (f : α → β) :
    xs.zip (xs.map f) = xs.map fun x => (x, f x) := by
  have lists (list : List α) : list.zip (list.map f) = list.map fun x => (x, f x) := by
    induction list with
    | nil => rfl
    | cons x list ih => rw [List.map_cons, List.zip_cons_cons, ih, List.map_cons]
  rw [← Array.toList_inj, Array.toList_zip, Array.toList_map, Array.toList_map]
  exact lists xs.toList

theorem exists_of_forall₂ {α β : Type} {related : α → β → Prop} {xs : List α} {ys : List β}
    (all : List.Forall₂ related xs ys) : ∀ x ∈ xs, ∃ y ∈ ys, related x y := by
  induction all with
  | nil => simp
  | cons first rest ih =>
    refine List.forall_mem_cons.mpr ⟨⟨_, List.mem_cons_self, first⟩, fun x member => ?_⟩
    obtain ⟨y, found, fits⟩ := ih x member
    exact ⟨y, List.mem_cons_of_mem _ found, fits⟩

theorem any_of_forall₂ {α β : Type} {p : α → Bool} {q : β → Bool} {xs : List α} {ys : List β}
    (same : List.Forall₂ (fun x y => q y = p x) xs ys) : ys.any q = xs.any p := by
  induction same with
  | nil => rfl
  | cons first rest ih => rw [List.any_cons, List.any_cons, first, ih]

namespace Bitmap

variable {g : Grade} {b : Bitmap}

/-- The same key and the same values; both containers are of the grade. -/
structure Reencoded (g : Grade) (d e : Entry) : Prop where
  before : g.Good d.container
  key : e.key = d.key
  good : g.Good e.container
  mem_iff : ∀ v, v ∈ e.container ↔ v ∈ d.container

theorem regular_of_reencoded {ds es : List Entry} (regular : Regular g ds)
    (same : List.Forall₂ (Reencoded g) ds es) :
    Regular g es ∧ ∀ k v, Holds es k v ↔ Holds ds k v := by
  induction same with
  | nil => exact ⟨regular_nil, fun k v => Iff.rfl⟩
  | @cons d e ds es first rest ih =>
    obtain ⟨regularRest, holds⟩ := ih regular.tail
    obtain ⟨v, member⟩ := Container.exists_mem regular.head_good.formed
      (regular.nonempty d List.mem_cons_self)
    have some := Container.isEmpty_eq_false first.good.formed v ((first.mem_iff v).mpr member)
    refine ⟨regularRest.cons first.good some ?_, fun k v => ?_⟩
    · intro k v later
      rw [first.key]
      exact regular.head_lt ((holds k v).mp later)
    · rw [holds_cons, holds_cons, first.key, first.mem_iff, holds]

/-- What holds of every container and its form without runs holds throughout the bitmap. -/
theorem removeRunCompression_each (related : Entry → Entry → Prop)
    (each : ∀ e ∈ b.entries, ∃ c,
      e.container.removeRunCompression = .ok (c, e.container.kind == .runs) ∧
        related e ⟨e.key, c⟩) :
    ∃ c, b.removeRunCompression = .ok (c, b.hasRuns) ∧
      List.Forall₂ related b.entries.toList c.entries.toList := by
  obtain ⟨results, done, same⟩ := array_mapM_ok
    (fun d r => related d r.1 ∧ r.2 = (d.container.kind == .runs)) entryWithoutRuns b.entries (by
      intro e member
      obtain ⟨c, done, fits⟩ := each e member
      exact ⟨(⟨e.key, c⟩, e.container.kind == .runs), by rw [entryWithoutRuns, done]; rfl, fits,
        rfl⟩)
  have flags : results.any Prod.snd = b.hasRuns := by
    rw [hasRuns, ← Array.any_toList, ← Array.any_toList]
    exact any_of_forall₂ (same.imp fun _ _ => And.right)
  refine ⟨⟨results.map Prod.fst⟩, by rw [removeRunCompression, done, ← flags]; rfl, ?_⟩
  rw [Array.toList_map, List.forall₂_map_right_iff]
  exact same.imp fun _ _ => And.left

theorem removeRunCompression_reencoded (good : ∀ e ∈ b.entries, g.Good e.container) :
    ∃ c, b.removeRunCompression = .ok (c, b.hasRuns) ∧
      List.Forall₂ (fun d e => Reencoded g d e ∧ e.container.kind ≠ .runs) b.entries.toList
        c.entries.toList := by
  apply removeRunCompression_each
  intro e member
  obtain ⟨c, done, changed, plain⟩ := Container.removeRunCompression_spec (good e member).formed
  refine ⟨c, done, ⟨good e member, rfl, ?_, changed.mem_iff⟩, plain⟩
  exact (good e member).step changed.formed changed.canonical

theorem removeRunCompression_spec (regular : Regular g b.entries.toList) :
    ∃ c, b.removeRunCompression = .ok (c, b.hasRuns) ∧ Regular g c.entries.toList ∧
      ∀ k v, Holds c.entries.toList k v ↔ Holds b.entries.toList k v := by
  obtain ⟨c, done, same⟩ := removeRunCompression_reencoded fun e member =>
    regular.good e (Array.mem_toList_iff.mpr member)
  exact ⟨c, done, regular_of_reencoded regular (same.imp fun _ _ => And.left)⟩

def smallestKind (e : Entry) : Kind := e.container.inferOptimalKind

def kindBesideRuns (e : Entry) : Kind :=
  if smallestKind e = .runs ∨ e.container.kind = .runs then e.container.kind else smallestKind e

def planOf (b : Bitmap) : Entry → Kind :=
  if b.serializedSize < b.serializedSizeAs b.optimalKinds then kindBesideRuns else smallestKind

theorem plannedKinds_eq (b : Bitmap) : b.plannedKinds = b.entries.map b.planOf := by
  rw [plannedKinds, planOf]
  simp only
  split
  · rw [optimalKinds, zip_map_self, Array.map_map]
    rfl
  · rfl

/-- The plan takes the smallest encoding of a container or leaves it as it is. -/
theorem planOf_cases (b : Bitmap) (e : Entry) :
    b.planOf e = e.container.inferOptimalKind ∨ b.planOf e = e.container.kind := by
  rw [planOf]
  split
  · rw [kindBesideRuns]
    split
    · exact Or.inr rfl
    · exact Or.inl rfl
  · exact Or.inl rfl

theorem convertTo_planned {c : Container} (good : g.Good c) (kind : Kind)
    (planned : kind = c.inferOptimalKind ∨ kind = c.kind) :
    ∃ d, c.convertTo kind = .ok d ∧ g.Good d ∧ d.kind = kind ∧ ∀ v, v ∈ d ↔ v ∈ c := by
  have formed := good.formed
  obtain ⟨d, done, formedD, encoded, mem⟩ := Container.convertTo_spec formed kind (by
    rintro rfl
    rcases planned with chosen | own
    · exact Container.inferOptimalKind_eq_array chosen.symm
    · cases c with
      | array s => exact formed.short
      | bits a => contradiction
      | runs r => contradiction)
  refine ⟨d, done, good.step formedD fun canonical => ?_, encoded, mem⟩
  apply canonical.convertTo _ formedD encoded mem
  rintro rfl other
  rcases planned with chosen | own
  · exact Container.inferOptimalKind_eq_bits chosen.symm other
  · exact absurd own.symm other

/-- What holds of every container and its planned form holds throughout the bitmap. -/
theorem runOptimize_each (related : Entry → Entry → Prop)
    (each : ∀ e ∈ b.entries, ∃ c, e.container.convertTo (b.planOf e) = .ok c ∧
      related e ⟨e.key, c⟩) :
    ∃ o, b.runOptimize = .ok o ∧
      List.Forall₂ related b.entries.toList o.bitmap.entries.toList := by
  obtain ⟨entries, done, same⟩ := array_mapM_ok related
    (fun e : Entry => do return ⟨e.key, ← e.container.convertTo (b.planOf e)⟩) b.entries (by
      intro e member
      obtain ⟨c, done, fits⟩ := each e member
      exact ⟨⟨e.key, c⟩, by rw [done]; rfl, fits⟩)
  refine ⟨⟨⟨entries⟩, (b.entries.map fun e => (e, b.planOf e)).countP
    fun p => p.1.container.kind != p.2⟩, ?_, same⟩
  rw [runOptimize, plannedKinds_eq, zip_map_self]
  simp only [Array.mapM_map, Function.comp_def]
  rw [done]
  rfl

theorem runOptimize_planned (good : ∀ e ∈ b.entries, g.Good e.container) :
    ∃ o, b.runOptimize = .ok o ∧
      List.Forall₂ (fun d e => Reencoded g d e ∧ e.container.kind = b.planOf d) b.entries.toList
        o.bitmap.entries.toList := by
  apply runOptimize_each
  intro e member
  obtain ⟨d, done, goodD, kind, mem⟩ :=
    convertTo_planned (good e member) (b.planOf e) (b.planOf_cases e)
  exact ⟨d, done, ⟨good e member, rfl, goodD, mem⟩, kind⟩

theorem runOptimize_reencoded (good : ∀ e ∈ b.entries, g.Good e.container) :
    ∃ o, b.runOptimize = .ok o ∧
      List.Forall₂ (Reencoded g) b.entries.toList o.bitmap.entries.toList := by
  obtain ⟨o, done, same⟩ := runOptimize_planned good
  exact ⟨o, done, same.imp fun _ _ => And.left⟩

theorem runOptimize_spec (regular : Regular g b.entries.toList) :
    ∃ o, b.runOptimize = .ok o ∧ Regular g o.bitmap.entries.toList ∧
      ∀ k v, Holds o.bitmap.entries.toList k v ↔ Holds b.entries.toList k v := by
  obtain ⟨o, done, same⟩ := runOptimize_reencoded fun e member =>
    regular.good e (Array.mem_toList_iff.mpr member)
  exact ⟨o, done, regular_of_reencoded regular same⟩

end Bitmap

end Roaring
