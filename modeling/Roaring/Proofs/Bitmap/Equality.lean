import Roaring.Proofs.Bitmap.Laws
import Roaring.Proofs.Bitmap.Optimize

/-! Comparison sees values and nothing else. It is decided on encodings, which therefore have to be
determined by what they hold; and it does not change when either side is re-encoded, even to a list
that is longer than a list may be. -/
namespace Roaring

/-! Containers. -/

namespace Container

variable {c d x y : Container}

/-- The second container holds what the first one holds. -/
structure Alike (c d : Container) : Prop where
  before : c.Ordered
  ordered : d.Ordered
  mem_iff : ∀ v, v ∈ d ↔ v ∈ c

theorem Ordered.alike (ordered : c.Ordered) : c.Alike c := ⟨ordered, ordered, fun _ => Iff.rfl⟩

theorem Alike.trans (first : c.Alike d) (second : d.Alike x) : c.Alike x :=
  ⟨first.before, second.ordered, fun v => (second.mem_iff v).trans (first.mem_iff v)⟩

theorem Alike.sameValues_eq (first : c.Alike x) (second : d.Alike y) :
    x.sameValues y = c.sameValues d := by
  rw [Bool.eq_iff_iff, first.ordered.sameValues_iff second.ordered,
    first.before.sameValues_iff second.before]
  simp only [first.mem_iff, second.mem_iff]

/-! The three ways to re-encode a container. -/

theorem Ordered.convertTo_alike (ordered : c.Ordered) (target : Kind) :
    ∃ d, c.convertTo target = .ok d ∧ c.Alike d := by
  obtain ⟨d, done, orderedD, -, mem⟩ := ordered.convertTo_spec target
  exact ⟨d, done, ordered, orderedD, mem⟩

theorem Ordered.runOptimize_alike (ordered : c.Ordered) :
    ∃ r, c.runOptimize = .ok r ∧ c.Alike r.1 := by
  obtain ⟨d, done, alike⟩ := ordered.convertTo_alike c.inferOptimalKind
  exact ⟨_, by rw [runOptimize, optimize, done]; rfl, alike⟩

theorem Ordered.removeRunCompression_alike (ordered : c.Ordered) :
    ∃ d, c.removeRunCompression = .ok (d, c.kind == .runs) ∧ c.Alike d := by
  cases c with
  | array s => exact ⟨_, rfl, ordered.alike⟩
  | bits b => exact ⟨_, rfl, ordered.alike⟩
  | runs r =>
    have formed : (runs r).WellFormed := ordered
    obtain ⟨d, done, changed, -⟩ := removeRunCompression_spec formed
    exact ⟨d, done, ordered, changed.formed.ordered, changed.mem_iff⟩

/-- What re-encodings, one after the other, make of a container. -/
inductive Converted (c : Container) : Container → Prop
  | same : Converted c c
  | convertTo (target : Kind) (d e : Container) (before : Converted c d)
      (done : d.convertTo target = .ok e) : Converted c e
  | runOptimize (d e : Container) (changed : Bool) (before : Converted c d)
      (done : d.runOptimize = .ok (e, changed)) : Converted c e
  | removeRunCompression (d e : Container) (changed : Bool) (before : Converted c d)
      (done : d.removeRunCompression = .ok (e, changed)) : Converted c e

theorem Converted.alike (converted : c.Converted d) (ordered : c.Ordered) : c.Alike d := by
  induction converted with
  | same => exact ordered.alike
  | convertTo target d e before done ih =>
    exact ih.trans (of_answer (ih.ordered.convertTo_alike target) done)
  | runOptimize d e changed before done ih =>
    have alike := of_answer ih.ordered.runOptimize_alike done
    exact ih.trans alike
  | removeRunCompression d e changed before done ih =>
    obtain ⟨f, answer, alike⟩ := ih.ordered.removeRunCompression_alike
    rw [answer] at done
    rw [← (Prod.mk.inj (Except.ok.inj done)).1]
    exact ih.trans alike

structure Converts (c : Container) : Prop where
  convertTo : ∀ target, ∃ d, c.convertTo target = .ok d
  runOptimize : ∃ result, c.runOptimize = .ok result
  removeRunCompression : ∃ result, c.removeRunCompression = .ok result

theorem Ordered.converts (ordered : c.Ordered) : c.Converts := by
  constructor
  case convertTo =>
    intro target
    obtain ⟨d, done, -⟩ := ordered.convertTo_alike target
    exact ⟨d, done⟩
  case runOptimize =>
    obtain ⟨result, done, -⟩ := ordered.runOptimize_alike
    exact ⟨result, done⟩
  case removeRunCompression =>
    obtain ⟨d, done, -⟩ := ordered.removeRunCompression_alike
    exact ⟨_, done⟩

end Container

/-! Bitmaps. -/

namespace Bitmap

variable {a b c x y : Bitmap} {as bs xs ys : List Entry}

def EntryAlike (d e : Entry) : Prop := e.key = d.key ∧ d.container.Alike e.container

/-- The same keys, and under each a container that holds the same. -/
def Alike (b c : Bitmap) : Prop := List.Forall₂ EntryAlike b.entries.toList c.entries.toList

theorem alike_self (ordered : ∀ e ∈ b.entries, e.container.Ordered) : b.Alike b :=
  List.forall₂_same.mpr fun e member => ⟨rfl, (ordered e (Array.mem_toList_iff.mp member)).alike⟩

theorem Alike.ordered (alike : b.Alike c) : ∀ e ∈ c.entries, e.container.Ordered := by
  intro e member
  obtain ⟨d, -, -, same⟩ := exists_of_forall₂ alike.flip e (Array.mem_toList_iff.mpr member)
  exact same.ordered

theorem forall₂_alike_trans (first : List.Forall₂ EntryAlike as bs)
    (second : List.Forall₂ EntryAlike bs xs) : List.Forall₂ EntryAlike as xs := by
  induction first generalizing xs with
  | nil => exact second
  | cons head tail ih =>
    cases second with
    | cons next rest =>
      exact .cons ⟨next.1.trans head.1, head.2.trans next.2⟩ (ih rest)

theorem Alike.trans (first : b.Alike c) (second : c.Alike x) : b.Alike x :=
  forall₂_alike_trans first second

theorem keys_of_alike (alike : List.Forall₂ EntryAlike as xs) :
    xs.map Entry.key = as.map Entry.key := by
  induction alike with
  | nil => rfl
  | cons first rest ih => rw [List.map_cons, List.map_cons, first.1, ih]

theorem pairs_of_alike (first : List.Forall₂ EntryAlike as xs)
    (second : List.Forall₂ EntryAlike bs ys) :
    (∀ p ∈ xs.zip ys, p.1.container.sameValues p.2.container = true) ↔
      ∀ p ∈ as.zip bs, p.1.container.sameValues p.2.container = true := by
  induction first generalizing bs ys with
  | nil => simp
  | cons head tail ih =>
    cases second with
    | nil => simp
    | cons head' tail' =>
      rw [List.zip_cons_cons, List.zip_cons_cons, List.forall_mem_cons, List.forall_mem_cons,
        head.2.sameValues_eq head'.2, ih tail']

theorem Alike.sameValues_eq (first : a.Alike x) (second : b.Alike y) :
    x.sameValues y = a.sameValues b := by
  rw [Bool.eq_iff_iff, sameValues_iff_entries, sameValues_iff_entries, keys_of_alike first,
    keys_of_alike second, pairs_of_alike first second]

theorem runOptimize_alike (ordered : ∀ e ∈ b.entries, e.container.Ordered) :
    ∃ o, b.runOptimize = .ok o ∧ b.Alike o.bitmap := by
  apply runOptimize_each
  intro e member
  obtain ⟨c, done, alike⟩ := (ordered e member).convertTo_alike (b.planOf e)
  exact ⟨c, done, rfl, alike⟩

theorem removeRunCompression_alike (ordered : ∀ e ∈ b.entries, e.container.Ordered) :
    ∃ c, b.removeRunCompression = .ok (c, b.hasRuns) ∧ b.Alike c := by
  apply removeRunCompression_each
  intro e member
  obtain ⟨c, done, alike⟩ := (ordered e member).removeRunCompression_alike
  exact ⟨c, done, rfl, alike⟩

/-- What re-encodings, one after the other, make of a bitmap. -/
inductive Converted (b : Bitmap) : Bitmap → Prop
  | same : Converted b b
  | runOptimize (c : Bitmap) (o : Optimized) (before : Converted b c)
      (done : c.runOptimize = .ok o) : Converted b o.bitmap
  | removeRunCompression (c d : Bitmap) (changed : Bool) (before : Converted b c)
      (done : c.removeRunCompression = .ok (d, changed)) : Converted b d
  | containers (c d : Bitmap) (before : Converted b c)
      (each : List.Forall₂ (fun e f => f.key = e.key ∧ e.container.Converted f.container)
        c.entries.toList d.entries.toList) : Converted b d

theorem alike_of_each (ordered : ∀ e ∈ as, e.container.Ordered)
    (each : List.Forall₂ (fun e f => f.key = e.key ∧ e.container.Converted f.container) as xs) :
    List.Forall₂ EntryAlike as xs := by
  induction each with
  | nil => exact .nil
  | cons first rest ih =>
    obtain ⟨here, later⟩ := List.forall_mem_cons.mp ordered
    exact .cons ⟨first.1, first.2.alike here⟩ (ih later)

/-- Through any re-encodings keys stay, and each container holds what it held. -/
theorem Converted.alike (converted : b.Converted c)
    (ordered : ∀ e ∈ b.entries, e.container.Ordered) : b.Alike c := by
  induction converted with
  | same => exact alike_self ordered
  | runOptimize c o before done ih =>
    have alike := of_answer (runOptimize_alike ih.ordered) done
    exact ih.trans alike
  | removeRunCompression c d changed before done ih =>
    obtain ⟨e, answer, alike⟩ := removeRunCompression_alike ih.ordered
    rw [answer] at done
    rw [← (Prod.mk.inj (Except.ok.inj done)).1]
    exact ih.trans alike
  | containers c d before each ih =>
    refine ih.trans (alike_of_each ?_ each)
    exact fun e member => ih.ordered e (Array.mem_toList_iff.mp member)

structure Converts (b : Bitmap) : Prop where
  runOptimize : ∃ o, b.runOptimize = .ok o
  removeRunCompression : ∃ result, b.removeRunCompression = .ok result
  containers : ∀ e ∈ b.entries, e.container.Converts

theorem Converted.converts (converted : b.Converted c)
    (ordered : ∀ e ∈ b.entries, e.container.Ordered) : c.Converts := by
  have ordered := (converted.alike ordered).ordered
  obtain ⟨o, optimized, -⟩ := runOptimize_alike ordered
  obtain ⟨d, removed, -⟩ := removeRunCompression_alike ordered
  exact ⟨⟨o, optimized⟩, ⟨_, removed⟩, fun e member => (ordered e member).converts⟩

theorem WellFormed.ordered (formed : b.WellFormed) : ∀ e ∈ b.entries, e.container.Ordered :=
  fun e member => (formed.containers e member).1.ordered

/-- Well-formed containers, and well-formed bitmaps, compare as equal exactly when they hold the same
values, whatever the encodings. So the comparison is an equivalence; and every re-encoding answers, and
leaves the outcome of the comparison as it was. -/
theorem sameValues_exact :
    (∀ c d : Container, c.WellFormed → d.WellFormed →
      (c.sameValues d = true ↔ ∀ v, v ∈ c ↔ v ∈ d) ∧
        ∀ x y, c.Converted x → d.Converted y → x.Converts ∧ x.sameValues y = c.sameValues d) ∧
      (∀ a b : Bitmap, a.WellFormed → b.WellFormed →
        (a.sameValues b = true ↔ a.members = b.members) ∧
          ∀ x y, a.Converted x → b.Converted y → x.Converts ∧ x.sameValues y = a.sameValues b) ∧
      (Equivalence fun c d : { c : Container // c.WellFormed } => c.1.sameValues d.1 = true) ∧
      Equivalence fun a b : { b : Bitmap // b.WellFormed } => a.1.sameValues b.1 = true := by
  refine ⟨fun c d formedC formedD => ?_, fun a b formedA formedB => ?_, ?_, ?_⟩
  · refine ⟨formedC.ordered.sameValues_iff formedD.ordered, fun x y convertedX convertedY => ?_⟩
    have alikeX := convertedX.alike formedC.ordered
    exact ⟨alikeX.ordered.converts, alikeX.sameValues_eq (convertedY.alike formedD.ordered)⟩
  · refine ⟨formedA.sameValues_iff_members formedB, fun x y convertedX convertedY => ?_⟩
    exact ⟨convertedX.converts formedA.ordered,
      (convertedX.alike formedA.ordered).sameValues_eq (convertedY.alike formedB.ordered)⟩
  · simp only [fun c d : { c : Container // c.WellFormed } =>
      c.2.ordered.sameValues_iff d.2.ordered]
    exact ⟨fun _ _ => Iff.rfl, fun same v => (same v).symm,
      fun first second v => (first v).trans (second v)⟩
  · simp only [fun a b : { b : Bitmap // b.WellFormed } => a.2.sameValues_iff_members b.2]
    exact ⟨fun _ => rfl, Eq.symm, Eq.trans⟩

/-- Three values as a list and as a run, and the list made into bits. -/
theorem sameValues_exact_encodings :
    let list := Container.array ⟨#[5, 6, 7]⟩
    let run := Container.runs ⟨#[⟨5, 2⟩]⟩
    let a : Bitmap := ⟨#[⟨3, list⟩]⟩
    let b : Bitmap := ⟨#[⟨3, run⟩]⟩
    list.WellFormed ∧ run.WellFormed ∧ a.WellFormed ∧ b.WellFormed ∧ (∀ v, v ∈ list ↔ v ∈ run) ∧
      (∃ x, list.convertTo .bits = .ok x ∧ x.sameValues run = true) ∧
      ∃ o, a.runOptimize = .ok o ∧ o.bitmap.sameValues b = true := by
  intro list run a b
  have formedList : list.WellFormed := by decide
  have formedRun : run.WellFormed := by decide
  have formedA : a.WellFormed := by decide
  have formedB : b.WellFormed := by decide
  obtain ⟨containers, bitmaps, -⟩ := sameValues_exact
  obtain ⟨exact, stays⟩ := containers list run formedList formedRun
  obtain ⟨-, staysBitmaps⟩ := bitmaps a b formedA formedB
  have equal : list.sameValues run = true := by cbv
  obtain ⟨x, done⟩ := (stays list run .same .same).1.convertTo .bits
  obtain ⟨o, optimized⟩ := (staysBitmaps a b .same .same).1.runOptimize
  refine ⟨formedList, formedRun, formedA, formedB, exact.mp equal, ⟨x, done, ?_⟩, o, optimized,
    ?_⟩
  · rw [(stays x run (.convertTo .bits list x .same done) .same).2]
    exact equal
  · rw [(staysBitmaps o.bitmap b (.runOptimize a o .same optimized) .same).2]
    cbv

end Bitmap

end Roaring
