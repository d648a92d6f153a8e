import Mathlib.Data.List.Forall2
import Roaring.Fixture
import Roaring.Proofs.Validation

/-! Raw parts and live bitmaps are judged alike. A bitmap that is made from parts has the violations
of the parts, in the same order and with the same parameters; parts that make no bitmap have one of
their own. In the other direction the parts of a live bitmap make that very bitmap. -/
namespace Roaring.Fixture

open Validation

/-- A small number is the same with a sign, and in fewer bits. -/
theorem toInt_of_small {w : UInt64} (small : w.toNat < 2 ^ 31) :
    w.toInt64.toInt = w.toNat ∧ w.toInt64.toInt32.toInt = w.toNat := by
  have signed : w.toInt64.toInt = w.toNat := by
    change w.toBitVec.toInt = w.toBitVec.toNat
    have low : w.toBitVec.toNat < 2 ^ 31 := small
    rw [BitVec.toInt_eq_toNat_cond, if_pos (by omega)]
  refine ⟨signed, ?_⟩
  rw [Int64.toInt_toInt32, signed]
  exact Int.bmod_eq_of_le (by omega) (by omega)

/-! Only the elements that the count speaks of matter, when there are so many. -/

theorem arrayViolations_congr {n : Nat} {xs ys : Array UInt16} (left : n ≤ xs.size)
    (right : n ≤ ys.size) (same : xs.toList.take n = ys.toList.take n) :
    arrayViolations n (some xs) = arrayViolations n (some ys) := by
  simp only [arrayViolations, Int.toNat_natCast, same]
  rw [failing_eq_nil.mpr (Int.not_lt.mpr (Int.ofNat_le.mpr left)),
    failing_eq_nil.mpr (Int.not_lt.mpr (Int.ofNat_le.mpr right))]

theorem runListViolations_congr {n : Nat} {xs ys : Array Run} (left : n ≤ xs.size)
    (right : n ≤ ys.size) (same : xs.toList.take n = ys.toList.take n) :
    runListViolations n (some xs) = runListViolations n (some ys) := by
  simp only [runListViolations, Int.toNat_natCast, same]
  rw [failing_eq_nil.mpr (Int.not_lt.mpr (Int.ofNat_le.mpr left)),
    failing_eq_nil.mpr (Int.not_lt.mpr (Int.ofNat_le.mpr right))]

namespace RawContainer

theorem length?_eq_some (count : Int32) (n : Nat) : length? count = some n ↔ count.toInt = n := by
  rw [length?]
  split
  · rename_i negative
    exact iff_of_false nofun (by omega)
  · rw [Option.some.injEq]
    omega

theorem leading?_eq_some {α : Type} (xs ys : Array α) (count : Int32) :
    leading? xs count = some ys ↔
      ∃ n : Nat, count.toInt = n ∧ n ≤ xs.size ∧ xs.toList.take n = ys.toList := by
  simp only [leading?, Option.bind_eq_bind, Option.bind_eq_some_iff, length?_eq_some]
  refine exists_congr fun n => and_congr_right fun _ => ?_
  split
  · rename_i enough
    rw [Option.some.injEq, and_iff_right enough, ← Array.toList_inj]
    simp
  · rename_i short
    exact iff_of_false nofun fun both => short both.1

/-- Parts that fit, and the container that they make. -/
inductive Makes : RawContainer → Container → Prop
  | array {cardinality : Int32} {content : Array UInt16} {n : Nat} {s : ArraySet} :
    cardinality.toInt = n → n ≤ content.size → content.toList.take n = s.values.toList →
    Makes (.array cardinality (some content)) (.array s)
  | bits {cardinality : Int32} {b : BitSet} : cardinality.toInt = b.cardinality →
    Makes (.bits cardinality (some b.words.toArray)) (.bits b)
  | runs {runCount : Int32} {parts : Array Run} {n : Nat} {r : RunSet} :
    runCount.toInt = n → n ≤ parts.size → parts.toList.take n = r.runs.toList →
    Makes (.runs runCount (some parts)) (.runs r)

theorem toContainer?_iff (c : RawContainer) (d : Container) :
    c.toContainer? = some d ↔ Makes c d := by
  constructor
  · intro live
    -- what comes to life was there, and its count is a length within it
    cases c with
    | array cardinality content =>
      simp only [toContainer?, Option.bind_eq_bind, Option.bind_eq_some_iff] at live
      obtain ⟨content, rfl, values, found, same⟩ := live
      obtain rfl := Option.some.inj same
      obtain ⟨n, count, enough, taken⟩ := (leading?_eq_some _ _ _).mp found
      exact .array count enough taken
    | bits cardinality words =>
      simp only [toContainer?, Option.bind_eq_bind, Option.bind_eq_some_iff] at live
      obtain ⟨n, length, words, rfl, same⟩ := live
      split at same
      · rename_i fits
        obtain rfl := Option.some.inj same
        have count := (length?_eq_some _ _).mp length
        have small := cardinality.toInt_lt
        have kept := BitSet.toNat_toUInt64 n (by omega)
        exact .bits (b := ⟨⟨words, fits⟩, n.toUInt64⟩) (count.trans (congrArg Nat.cast kept.symm))
      · contradiction
    | runs runCount parts =>
      simp only [toContainer?, Option.bind_eq_bind, Option.bind_eq_some_iff] at live
      obtain ⟨parts, rfl, runs, found, same⟩ := live
      obtain rfl := Option.some.inj same
      obtain ⟨n, count, enough, taken⟩ := (leading?_eq_some _ _ _).mp found
      exact .runs count enough taken
    | unknown tag => contradiction
  · intro makes
    cases makes with
    | @array cardinality content n s count enough taken =>
      have found := (leading?_eq_some content s.values cardinality).mpr ⟨n, count, enough, taken⟩
      simp [toContainer?, found]
    | @bits cardinality b count =>
      have length := (length?_eq_some cardinality b.cardinality).mpr count
      have kept : b.cardinality.toUInt64 = b.cached := UInt64.ofNat_toNat
      simp [toContainer?, length, kept]
    | @runs runCount parts n r count enough taken =>
      have found := (leading?_eq_some parts r.runs runCount).mpr ⟨n, count, enough, taken⟩
      simp [toContainer?, found]

theorem Makes.violations_eq {c : RawContainer} {d : Container} (makes : Makes c d) :
    containerViolations c.view = containerViolations (.ofContainer d) := by
  cases makes with
  | @array cardinality content n s count enough taken =>
    obtain rfl : s.length = n := by
      rw [ArraySet.length, ← Array.length_toList, ← taken, List.length_take_of_le enough]
    have whole : s.values.toList.take s.length = s.values.toList := List.take_length
    change arrayViolations cardinality.toInt (some content) = _
    rw [count]
    exact arrayViolations_congr enough (Nat.le_refl _) (taken.trans whole.symm)
  | @bits cardinality b count =>
    have small : b.cached.toNat < 2 ^ 31 := Int.ofNat_lt.mp (count ▸ cardinality.toInt_lt)
    change bitViolations cardinality.toInt (some b.words.toArray) =
      bitViolations b.cached.toInt64.toInt (some b.words.toArray)
    rw [count, (toInt_of_small small).1]
    rfl
  | @runs runCount parts n r count enough taken =>
    obtain rfl : r.countRuns = n := by
      rw [RunSet.countRuns, ← Array.length_toList, ← taken, List.length_take_of_le enough]
    have whole : r.runs.toList.take r.countRuns = r.runs.toList := List.take_length
    change runListViolations runCount.toInt (some parts) = _
    rw [count]
    exact runListViolations_congr enough (Nat.le_refl _) (taken.trans whole.symm)

theorem exists_makes {c : RawContainer} (valid : c.view.Valid) : ∃ d, Makes c d := by
  cases c with
  | array cardinality content =>
    obtain ⟨nonnegative, -, values, rfl, enough, -⟩ := valid
    exact ⟨_, .array (s := ⟨values.take cardinality.toInt.toNat⟩)
      (Int.toNat_of_nonneg nonnegative).symm (by omega) (by simp)⟩
  | bits cardinality words =>
    obtain ⟨ws, rfl, fits, count⟩ := valid
    have small := cardinality.toInt_lt
    have kept := BitSet.toNat_toUInt64 (setBits ws) (by omega)
    exact ⟨_, .bits (b := ⟨⟨ws, fits⟩, (setBits ws).toUInt64⟩)
      (count.trans (congrArg Nat.cast kept.symm))⟩
  | runs runCount parts =>
    obtain ⟨nonnegative, rs, rfl, enough, -⟩ := valid
    exact ⟨_, .runs (r := ⟨rs.take runCount.toInt.toNat⟩)
      (Int.toNat_of_nonneg nonnegative).symm (by omega) (by simp)⟩
  | unknown tag => exact valid.elim

end RawContainer

/-- The count of a container fits the 32 bits that it has among raw parts. -/
def Expressible : Container → Prop
  | .array s => s.length < 2 ^ 31
  | .bits b => b.cardinality < 2 ^ 31
  | .runs r => r.countRuns < 2 ^ 31

instance : (c : Container) → Decidable (Expressible c)
  | .array s => inferInstanceAs (Decidable (s.length < 2 ^ 31))
  | .bits b => inferInstanceAs (Decidable (b.cardinality < 2 ^ 31))
  | .runs r => inferInstanceAs (Decidable (r.countRuns < 2 ^ 31))

/-- So do the counts of all containers, and their own number. -/
structure ExpressibleBitmap (b : Bitmap) : Prop where
  few : b.containerCount < 2 ^ 31
  containers : ∀ e ∈ b.entries, Expressible e.container

instance (b : Bitmap) : Decidable (ExpressibleBitmap b) :=
  decidable_of_iff (b.containerCount < 2 ^ 31 ∧ ∀ e ∈ b.entries, Expressible e.container)
    ⟨fun both => ⟨both.1, both.2⟩, fun fits => ⟨fits.few, fits.containers⟩⟩

namespace RawContainer

theorem makes_ofContainer {c : Container} (fits : Expressible c) : Makes (.ofContainer c) c := by
  cases c with
  | array s => exact .array (Int32.toInt_ofNat_of_lt fits) (Nat.le_refl _) List.take_length
  | bits b => exact .bits (toInt_of_small fits).2
  | runs r => exact .runs (Int32.toInt_ofNat_of_lt fits) (Nat.le_refl _) List.take_length

end RawContainer

open RawContainer

/-! Of the slots, too, only those matter that the size speaks of, and of the containers in them
only what is wrong with them. -/

/-- Two slots in use, with containers that have the same violations. -/
def Alike (slot other : Option ContainerView) : Prop :=
  ∃ view live, slot = some view ∧ other = some live ∧
    containerViolations view = containerViolations live

theorem emptySlots_congr {slots others : List (Option ContainerView)}
    (alike : List.Forall₂ Alike slots others) (i : Nat) (keys : List UInt16) :
    emptySlots i (slots.zip keys) = emptySlots i (others.zip keys) := by
  induction alike generalizing i keys with
  | nil => rfl
  | cons head _ ih =>
    obtain ⟨view, live, rfl, rfl, -⟩ := head
    cases keys with
    | nil => rfl
    | cons key keys =>
      rw [List.zip_cons_cons, List.zip_cons_cons, emptySlots_cons, emptySlots_cons, ih]
      simp only [reduceCtorEq]

theorem slotViolations_congr {slots others : List (Option ContainerView)}
    (alike : List.Forall₂ Alike slots others) (keys : List UInt16) :
    slotViolations (slots.zip keys) = slotViolations (others.zip keys) := by
  induction alike generalizing keys with
  | nil => rfl
  | cons head _ ih =>
    obtain ⟨view, live, rfl, rfl, same⟩ := head
    cases keys with
    | nil => rfl
    | cons key keys =>
      rw [List.zip_cons_cons, List.zip_cons_cons, slotViolations_cons, slotViolations_cons, ih,
        same]

theorem violations_congr {n : Nat} {keys others : Array UInt16}
    {containers lives : Array (Option ContainerView)} (left : n ≤ min keys.size containers.size)
    (right : n ≤ min others.size lives.size)
    (same : keys.toList.take n = others.toList.take n)
    (alike : List.Forall₂ Alike (containers.toList.take n) (lives.toList.take n)) :
    violations (some ⟨n, some keys, some containers⟩) =
      violations (some ⟨n, some others, some lives⟩) := by
  simp only [violations, entryViolations, Int.toNat_natCast, same, emptySlots_congr alike,
    slotViolations_congr alike, reduceCtorEq]
  rw [failing_eq_nil.mpr (Int.not_lt.mpr (Int.ofNat_le.mpr left)),
    failing_eq_nil.mpr (Int.not_lt.mpr (Int.ofNat_le.mpr right))]

theorem take_keys (b : Bitmap) : b.keys.toList.take b.containerCount = b.keys.toList := by
  simp [Bitmap.keys, Bitmap.containerCount]

theorem take_entries (b : Bitmap) :
    b.entries.toList.take b.containerCount = b.entries.toList :=
  List.take_length

/-- Parts that are all there and fit, and the bitmap that they make. -/
inductive RawIndex.Makes : RawIndex → Bitmap → Prop
  | parts {size : Int32} {keys : Array UInt16} {slots : Array (Option RawContainer)} {b : Bitmap} :
    size.toInt = b.containerCount → b.containerCount ≤ min keys.size slots.size →
    keys.toList.take b.containerCount = b.keys.toList →
    List.Forall₂ (fun slot e => ∃ c, slot = some c ∧ c.Makes e.container)
      (slots.toList.take b.containerCount) b.entries.toList →
    Makes ⟨size, some keys, some slots⟩ b

theorem RawIndex.Makes.violations_eq {index : RawIndex} {b : Bitmap} (makes : index.Makes b) :
    violations (RawBitmap.view ⟨some index⟩) = violations (some (.ofBitmap b)) := by
  obtain @⟨size, keys, slots, b, count, enough, taken, filled⟩ := makes
  change violations (some ⟨size.toInt, some keys, some (slots.map (Option.map view))⟩) = _
  rw [count]
  refine violations_congr (by simpa using enough) (by simp [Bitmap.keys, Bitmap.containerCount])
    (taken.trans (take_keys b).symm) ?_
  rw [Array.toList_map, Array.toList_map, ← List.map_take, ← List.map_take, take_entries,
    List.forall₂_map_left_iff, List.forall₂_map_right_iff]
  refine filled.imp ?_
  rintro slot e ⟨c, there, makes⟩
  exact ⟨c.view, _, congrArg (Option.map view) there, rfl, makes.violations_eq⟩

/-- What a partial function gives on a whole array is what it gives on each element. -/
theorem mapM_eq_some_iff {α β : Type} (f : α → Option β) (xs : Array α) (ys : Array β) :
    xs.mapM f = some ys ↔ List.Forall₂ (fun x y => f x = some y) xs.toList ys.toList := by
  have lists (xs : List α) (ys : List β) :
      xs.mapM f = some ys ↔ List.Forall₂ (fun x y => f x = some y) xs ys := by
    induction xs generalizing ys with
    | nil => simp [eq_comm]
    | cons x xs ih =>
      simp only [List.mapM_cons, Option.bind_eq_bind, Option.pure_def, Option.bind_eq_some_iff,
        Option.some.injEq, List.forall₂_cons_left_iff, ih]
      grind
  rw [← lists, ← Array.toList_mapM, Option.map_eq_map, Option.map_eq_some_iff]
  simp

theorem exists_forall₂ {α β : Type} {related : α → β → Prop} {xs : List α}
    (each : ∀ x ∈ xs, ∃ y, related x y) : ∃ ys, List.Forall₂ related xs ys := by
  induction xs with
  | nil => exact ⟨[], .nil⟩
  | cons x xs ih =>
    obtain ⟨y, first⟩ := each x List.mem_cons_self
    obtain ⟨ys, others⟩ := ih fun x member => each x (List.mem_cons_of_mem _ member)
    exact ⟨y :: ys, .cons first others⟩

/-- The first keys, paired with what the first slots make, are such a bitmap. -/
theorem RawIndex.makes_zip {size : Int32} {keys ks : Array UInt16}
    {slots : Array (Option RawContainer)} {cs : Array Container} {n : Nat}
    (count : size.toInt = n) (enough : n ≤ min keys.size slots.size)
    (taken : keys.toList.take n = ks.toList)
    (filled : List.Forall₂ (fun slot d => ∃ c, slot = some c ∧ c.Makes d)
      (slots.toList.take n) cs.toList) :
    Makes ⟨size, some keys, some slots⟩ ⟨(ks.zip cs).map fun (key, c) => ⟨key, c⟩⟩ := by
  have length : ks.size = n := by
    rw [← Array.length_toList, ← taken, List.length_take_of_le (by simp; omega)]
  have room : cs.size = n := by
    rw [← Array.length_toList, ← filled.length_eq, List.length_take_of_le (by simp; omega)]
  have paired : (ks.zip cs).size = n := by rw [Array.size_zip, length, room, Nat.min_self]
  have keysBack : ((ks.zip cs).map fun (key, c) => Entry.mk key c).map Entry.key = ks := by
    rw [Array.map_map]
    exact Array.map_fst_zip (by omega)
  have slotsBack : ((ks.zip cs).map fun (key, c) => Entry.mk key c).map Entry.container = cs := by
    rw [Array.map_map]
    exact Array.map_snd_zip (by omega)
  rw [← slotsBack, Array.toList_map, List.forall₂_map_right_iff] at filled
  have counted : Bitmap.containerCount ⟨(ks.zip cs).map fun (key, c) => ⟨key, c⟩⟩ = n := by
    rw [Bitmap.containerCount, Array.size_map, paired]
  refine .parts (by rw [counted, count]) (by rw [counted]; exact enough) ?_ (by rwa [counted])
  rw [counted, taken, Bitmap.keys, keysBack]

namespace RawBitmap

theorem toBitmap?_iff (r : RawBitmap) (b : Bitmap) :
    r.toBitmap? = some b ↔ ∃ index, r.index = some index ∧ index.Makes b := by
  constructor
  · intro live
    simp only [toBitmap?, Option.bind_eq_bind, Option.bind_eq_some_iff, leading?_eq_some,
      mapM_eq_some_iff, toContainer?_iff] at live
    obtain ⟨⟨size, _, _⟩, found, keys, rfl, ks, ⟨n, count, enough, taken⟩, slots, rfl, ss,
      ⟨m, again, room, first⟩, cs, filled, same⟩ := live
    obtain rfl : n = m := Int.ofNat_inj.mp (count.symm.trans again)
    obtain rfl := Option.some.inj same
    exact ⟨_, found, RawIndex.makes_zip count (by omega) taken (first ▸ filled)⟩
  · rintro ⟨index, found, @⟨size, keys, slots, b, count, enough, taken, filled⟩⟩
    have ks := (leading?_eq_some keys b.keys size).mpr ⟨_, count, by omega, taken⟩
    have ss := (leading?_eq_some slots (slots.take b.containerCount) size).mpr
      ⟨_, count, by omega, by simp⟩
    have cs : (slots.take b.containerCount).mapM (fun slot => slot.bind toContainer?) =
        some (b.entries.map Entry.container) := by
      have firsts : (slots.take b.containerCount).toList = slots.toList.take b.containerCount := by
        simp
      rw [mapM_eq_some_iff, Array.toList_map, List.forall₂_map_right_iff, firsts]
      simpa only [Option.bind_eq_some_iff, toContainer?_iff] using filled
    have back : (b.keys.zip (b.entries.map Entry.container)).map (fun (key, c) => Entry.mk key c) =
        b.entries := by
      simp [Bitmap.keys, Array.zip_map', Function.comp_def]
    simp [toBitmap?, found, ks, ss, cs, back]

/-- Parts that have no violations make a bitmap. -/
theorem exists_toBitmap? {r : RawBitmap} {index : IndexView} (seen : r.view = some index)
    (valid : index.Valid) : ∃ b, r.toBitmap? = some b := by
  obtain ⟨⟨size, keys, slots⟩, found, rfl⟩ := Option.map_eq_some_iff.mp seen
  obtain ⟨nonnegative, keys, containers, rfl, slotsThere, enough, -, filled⟩ := valid
  obtain ⟨slots, rfl, rfl⟩ := Option.map_eq_some_iff.mp slotsThere
  have count := (Int.toNat_of_nonneg nonnegative).symm
  have each : ∀ slot ∈ slots.toList.take size.toInt.toNat, ∃ d, ∃ c, slot = some c ∧ c.Makes d := by
    intro slot member
    obtain ⟨view, there, valid⟩ := filled (slot.map RawContainer.view)
      (by rw [Array.toList_map, ← List.map_take]; exact List.mem_map_of_mem member)
    obtain ⟨c, rfl, rfl⟩ := Option.map_eq_some_iff.mp there
    obtain ⟨d, makes⟩ := exists_makes valid
    exact ⟨d, c, rfl, makes⟩
  obtain ⟨ds, made⟩ := exists_forall₂ each
  have taken : keys.toList.take size.toInt.toNat = (keys.take size.toInt.toNat).toList := by simp
  rw [Array.size_map] at enough
  have made : List.Forall₂ _ _ ds.toArray.toList := made
  exact ⟨_, (toBitmap?_iff r _).mpr ⟨_, found, RawIndex.makes_zip count (by omega) taken made⟩⟩

theorem toBitmap?_ofBitmap {b : Bitmap} (fits : ExpressibleBitmap b) :
    (ofBitmap b).toBitmap? = some b := by
  refine (toBitmap?_iff _ b).mpr ⟨_, rfl, .parts (Int32.toInt_ofNat_of_lt fits.few)
    (by simp [Bitmap.keys, Bitmap.containerCount]) (take_keys b) ?_⟩
  rw [Array.toList_map, ← List.map_take, take_entries, List.forall₂_map_left_iff, List.forall₂_same]
  intro e member
  exact ⟨_, rfl, makes_ofContainer (fits.containers e (Array.mem_toList_iff.mp member))⟩

/-- What comes to life has the verdict of its parts. -/
theorem validate_eq {r : RawBitmap} {b : Bitmap} (lives : r.toBitmap? = some b) :
    r.validate = b.validate := by
  obtain ⟨index, found, makes⟩ := (toBitmap?_iff r b).mp lives
  obtain ⟨_⟩ := r
  subst found
  rw [RawBitmap.validate, Bitmap.validate, check_eq, check_eq, makes.violations_eq]

end RawBitmap

/-- The validation of raw parts always answers. It refuses parts that make no bitmap, and gives a
bitmap that they make the verdict that they have. A live bitmap whose counts fit has the verdict of
its parts, which make it again. -/
theorem judged_alike (r : RawBitmap) (b : Bitmap) :
    (∃ v, r.validate = .ok v ∧ (r.toBitmap? = none → v.isValid = false) ∧
      ∀ live, r.toBitmap? = some live → live.validate = .ok v) ∧
    (ExpressibleBitmap b → (∃ v, (RawBitmap.ofBitmap b).validate = .ok v ∧ b.validate = .ok v) ∧
      (RawBitmap.ofBitmap b).toBitmap? = some b) := by
  constructor
  · refine ⟨_, check_eq r.view, fun dead => ?_, fun live lives => ?_⟩
    · rw [Bool.eq_false_iff]
      intro success
      obtain ⟨index, seen, valid⟩ :=
        (violations_eq_nil _).mp ((isValid_first_violations _).mp success)
      obtain ⟨b, lives⟩ := RawBitmap.exists_toBitmap? seen valid
      exact absurd (dead.symm.trans lives) nofun
    · exact (RawBitmap.validate_eq lives).symm.trans (check_eq r.view)
  · intro fits
    have back := RawBitmap.toBitmap?_ofBitmap fits
    exact ⟨⟨_, check_eq _, (RawBitmap.validate_eq back).symm.trans (check_eq _)⟩, back⟩

theorem judged_alike_descending :
    let dead : RawBitmap := ⟨some ⟨1, some #[7], some #[some (.array 3 (some #[5, 8]))]⟩⟩
    let raw : RawBitmap := ⟨some ⟨1, some #[7, 2], some #[some (.array 2 (some #[5, 3, 8])), none]⟩⟩
    let live : Bitmap := ⟨#[⟨7, .array ⟨#[5, 3]⟩⟩]⟩
    (dead.toBitmap? = none ∧ ∃ v, dead.validate = .ok v ∧ v.isValid = false) ∧
      (raw.toBitmap? = some live ∧ ∃ v, raw.validate = .ok v ∧ live.validate = .ok v) ∧
      ExpressibleBitmap live ∧
      (∃ v, (RawBitmap.ofBitmap live).validate = .ok v ∧ live.validate = .ok v) ∧
      (RawBitmap.ofBitmap live).toBitmap? = some live := by
  intro dead raw live
  have lost : dead.toBitmap? = none := by decide +kernel
  have lives : raw.toBitmap? = some live := by decide +kernel
  have fits : ExpressibleBitmap live := by decide
  obtain ⟨v, judged, refused, -⟩ := (judged_alike dead live).1
  obtain ⟨w, seen, -, same⟩ := (judged_alike raw live).1
  obtain ⟨both, back⟩ := (judged_alike raw live).2 fits
  exact ⟨⟨lost, v, judged, refused lost⟩, ⟨lives, w, seen, same live lives⟩, fits, both, back⟩

end Roaring.Fixture
