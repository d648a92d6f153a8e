import Roaring.Columns.Algebra
import Roaring.Proofs.Bitmap.Algebra
import Roaring.Proofs.Columns.Update

/-! Set algebra on columns. Its walks go by indices into the columns where those on bitmaps take lists
apart; at every index they are where the lists have what is left. -/
namespace Roaring.Columns

variable {α β γ : Type} {entries : Array Entry}

/-! Walks that put out entries. -/

/-- A walk puts out what a walk over entries does, or both fail. -/
abbrev PutsOut (result : EStateM.Result Fault Columns Unit) (out : Checked (Array Entry)) : Prop :=
  Follows (fun out => (out, ())) result out

theorem Follows.lift {view : β → Array Entry × α} {answered : Checked γ} {next : γ → Change α}
    {spec : γ → Checked β} {s : Columns}
    (each : ∀ a, answered = .ok a → Follows view ((next a).run s) (spec a)) :
    Follows view ((liftM answered >>= next).run s) (answered >>= spec) := by
  cases done : answered with
  | error fault => exact ⟨s, rfl⟩
  | ok a => exact each a done

theorem pushNonempty_ofEntries (key : UInt16) (c : Container) : (pushNonempty key c).run
    (ofEntries entries) = .ok () (ofEntries (Bitmap.pushNonempty entries key c)) := by
  rw [pushNonempty, Bitmap.pushNonempty]
  split
  · rfl
  · exact pushEntry_ofEntries key c

theorem pairs_ofEntries :
    (ofEntries entries).pairs = entries.toList.map fun e : Entry => (e.key, e.container) := by
  rw [pairs, ofEntries, Array.zip_map', Array.toList_map]

theorem forM_pushNonempty (list : List Entry) (out : Array Entry) :
    ((list.map fun e : Entry => (e.key, e.container)).forM fun (key, c) => pushNonempty key c).run
      (ofEntries out) = .ok () (ofEntries (Bitmap.appendNonempty out list)) := by
  induction list generalizing out with
  | nil => rfl
  | cons e list ih =>
    rw [List.map_cons, List.forM, run_bind_ok (pushNonempty_ofEntries e.key e.container), ih]
    rfl

theorem extendFrom_ofEntries (d out : Array Entry) (i : Nat) (inside : i ≤ d.size) :
    (extendFrom (ofEntries d) i).run (ofEntries out) =
      .ok () (ofEntries (Bitmap.appendNonempty out (d.toList.drop i))) := by
  have keys : stretch (ofEntries d).keys i (ofEntries d).keys.size =
      .ok ((d.extract i d.size).map Entry.key) := by
    rw [size_keys, stretch_of_le inside (Nat.le_of_eq size_keys.symm), ofEntries, Array.map_extract]
  have containers : stretch (ofEntries d).containers i (ofEntries d).containers.size =
      .ok ((d.extract i d.size).map Entry.container) := by
    rw [size_containers, stretch_of_le inside (Nat.le_of_eq size_containers.symm), ofEntries,
      Array.map_extract]
  have rest : (d.extract i d.size).toList = d.toList.drop i := by simp
  rw [extendFrom, run_bind_ok (run_lift_ok keys), run_bind_ok (run_lift_ok containers),
    Array.zip_map', Array.toList_map, rest, forM_pushNonempty]

/-! Two sides at once. -/

/-- What the columns show at an index of which there is an entry. -/
structure At (d : Array Entry) (i : Nat) (x : Entry) : Prop where
  here : d[i]? = some x
  key : (ofEntries d).keys[i]? = some x.key
  rest : d.toList.drop i = x :: d.toList.drop (i + 1)

theorem At.inside {d : Array Entry} {i : Nat} {x : Entry} (here : At d i x) : i < d.size :=
  (Array.getElem?_eq_some_iff.mp here.here).1

theorem at_of_lt {d : Array Entry} {i : Nat} (inside : i < d.size) : At d i d[i] := by
  have here : d[i]? = some d[i] := Array.getElem?_eq_getElem inside
  refine ⟨here, by rw [ofEntries, Array.getElem?_map, here, Option.map_some], ?_⟩
  rw [List.drop_eq_getElem_cons (by simpa using inside), Array.getElem_toList]

theorem getElem_keys {d : Array Entry} {i : Nat} (inside : i < (ofEntries d).keys.size) :
    ∃ x, At d i x ∧ (ofEntries d).keys[i] = x.key := by
  have known := at_of_lt (d := d) (i := i) (by rwa [size_keys] at inside)
  refine ⟨_, known, ?_⟩
  exact Option.some.inj ((Array.getElem?_eq_getElem inside).symm.trans known.key)

theorem drop_of_not_lt {d : Array Entry} {i : Nat} (past : ¬ i < (ofEntries d).keys.size) :
    d.toList.drop i = [] := by
  rw [size_keys] at past
  exact List.drop_eq_nil_of_le (by simpa using past)

theorem interFrom_ofEntries (d e : Array Entry) (i j : Nat) (out : Array Entry) :
    PutsOut ((interFrom (ofEntries d) (ofEntries e) i j).run (ofEntries out))
      (Bitmap.interOnto (d.toList.drop i) (e.toList.drop j) out) := by
  induction i, j using interFrom.induct (ofEntries d) (ofEntries e) generalizing out with
  | case1 i j more less ih =>
    obtain ⟨x, atX, keyX⟩ := getElem_keys more.1
    obtain ⟨y, atY, keyY⟩ := getElem_keys more.2
    rw [interFrom, dif_pos more, if_pos less]
    rw [keyX, keyY] at less
    rw [atX.rest, atY.rest, Bitmap.interOnto, if_pos less, ← atY.rest]
    exact ih out
  | case2 i j more notLess greater ih =>
    obtain ⟨x, atX, keyX⟩ := getElem_keys more.1
    obtain ⟨y, atY, keyY⟩ := getElem_keys more.2
    rw [interFrom, dif_pos more, if_neg notLess, if_pos greater]
    rw [keyX, keyY] at notLess greater
    rw [atX.rest, atY.rest, Bitmap.interOnto, if_neg notLess, if_pos greater, ← atX.rest]
    exact ih out
  | case3 i j more notLess notMore ih =>
    obtain ⟨x, atX, keyX⟩ := getElem_keys more.1
    obtain ⟨y, atY, keyY⟩ := getElem_keys more.2
    rw [interFrom, dif_pos more, if_neg notLess, if_neg notMore, keyX]
    rw [keyX, keyY] at notLess notMore
    rw [atX.rest, atY.rest, Bitmap.interOnto, if_neg notLess, if_neg notMore,
      run_bind_ok (run_lift_ok (fetch_containers atX.here)),
      run_bind_ok (run_lift_ok (fetch_containers atY.here))]
    apply Follows.lift
    intro c _
    rw [run_bind_ok (pushNonempty_ofEntries x.key c)]
    exact ih _
  | case4 i j none =>
    rw [interFrom, dif_neg none]
    rcases not_and_or.mp none with past | past
    · rw [drop_of_not_lt past, Bitmap.interOnto]
      · rfl
      · simp
    · rw [drop_of_not_lt past, Bitmap.interOnto_nil]
      rfl

theorem mergeFrom_ofEntries (combine : Container → Container → Checked Container)
    (d e : Array Entry) (i j : Nat) (insideD : i ≤ d.size) (insideE : j ≤ e.size)
    (out : Array Entry) :
    PutsOut ((mergeFrom combine (ofEntries d) (ofEntries e) i j).run (ofEntries out))
      (Bitmap.mergeOnto combine (d.toList.drop i) (e.toList.drop j) out) := by
  induction i, j using mergeFrom.induct (ofEntries d) (ofEntries e) generalizing out with
  | case1 i j more less ih =>
    obtain ⟨x, atX, keyX⟩ := getElem_keys more.1
    obtain ⟨y, atY, keyY⟩ := getElem_keys more.2
    rw [mergeFrom, dif_pos more, if_pos less]
    rw [keyX, keyY] at less
    rw [atX.rest, atY.rest, Bitmap.mergeOnto, if_pos less, ← atY.rest,
      run_bind_ok (run_lift_ok (fetch_containers atX.here)), keyX,
      run_bind_ok (pushNonempty_ofEntries x.key x.container)]
    exact ih atX.inside insideE _
  | case2 i j more notLess greater ih =>
    obtain ⟨x, atX, keyX⟩ := getElem_keys more.1
    obtain ⟨y, atY, keyY⟩ := getElem_keys more.2
    rw [mergeFrom, dif_pos more, if_neg notLess, if_pos greater]
    rw [keyX, keyY] at notLess greater
    rw [atX.rest, atY.rest, Bitmap.mergeOnto, if_neg notLess, if_pos greater, ← atX.rest,
      run_bind_ok (run_lift_ok (fetch_containers atY.here)), keyY,
      run_bind_ok (pushNonempty_ofEntries y.key y.container)]
    exact ih insideD atY.inside _
  | case3 i j more notLess notMore ih =>
    obtain ⟨x, atX, keyX⟩ := getElem_keys more.1
    obtain ⟨y, atY, keyY⟩ := getElem_keys more.2
    rw [mergeFrom, dif_pos more, if_neg notLess, if_neg notMore, keyX]
    rw [keyX, keyY] at notLess notMore
    rw [atX.rest, atY.rest, Bitmap.mergeOnto, if_neg notLess, if_neg notMore,
      run_bind_ok (run_lift_ok (fetch_containers atX.here)),
      run_bind_ok (run_lift_ok (fetch_containers atY.here))]
    apply Follows.lift
    intro c _
    rw [run_bind_ok (pushNonempty_ofEntries x.key c)]
    exact ih atX.inside atY.inside _
  | case4 i j none =>
    rw [mergeFrom, dif_neg none, run_bind_ok (extendFrom_ofEntries d out i insideD),
      extendFrom_ofEntries e _ j insideE]
    rcases not_and_or.mp none with past | past
    · rw [drop_of_not_lt past, Bitmap.mergeOnto]
      rfl
    · rw [drop_of_not_lt past, Bitmap.mergeOnto_nil]
      rfl

/-! One side after the other. -/

theorem drop_skipBelow (d : Array Entry) (key : UInt16) (j : Nat) :
    d.toList.drop (skipBelow (ofEntries d).keys key j) =
      (d.toList.drop j).dropWhile (fun e => e.key < key) := by
  induction j using skipBelow.induct (ofEntries d).keys key with
  | case1 j more below ih =>
    obtain ⟨x, atX, keyX⟩ := getElem_keys more
    rw [skipBelow, dif_pos more, if_pos below, ih, atX.rest, List.dropWhile_cons_of_pos]
    rwa [decide_eq_true_eq, ← keyX]
  | case2 j more notBelow =>
    obtain ⟨x, atX, keyX⟩ := getElem_keys more
    rw [skipBelow, dif_pos more, if_neg notBelow, atX.rest, List.dropWhile_cons_of_neg]
    rwa [decide_eq_true_eq, ← keyX]
  | case3 j none => rw [skipBelow, dif_neg none, drop_of_not_lt none, List.dropWhile_nil]

theorem skipBelow_le (d : Array Entry) (key : UInt16) (j : Nat) (inside : j ≤ d.size) :
    skipBelow (ofEntries d).keys key j ≤ d.size := by
  induction j using skipBelow.induct (ofEntries d).keys key with
  | case1 j more below ih =>
    obtain ⟨x, atX, -⟩ := getElem_keys more
    rw [skipBelow, dif_pos more, if_pos below]
    exact ih atX.inside
  | case2 j more notBelow => rwa [skipBelow, dif_pos more, if_neg notBelow]
  | case3 j none => rwa [skipBelow, dif_neg none]

/-- The key at an index is the given one just when the first entry that is left is its partner. -/
theorem partner_cases (d : Array Entry) (key : UInt16) (j : Nat) :
    (∃ x, At d j x ∧ (ofEntries d).keys[j]? = some key ∧
        (d.toList.drop j).head?.filter (fun e => e.key == key) = some x) ∨
      ((ofEntries d).keys[j]? ≠ some key ∧
        (d.toList.drop j).head?.filter (fun e => e.key == key) = none) := by
  rcases Nat.lt_or_ge j d.size with inside | past
  · have known := at_of_lt inside
    generalize d[j] = x at known
    rw [known.key, known.rest, List.head?_cons]
    by_cases same : x.key = key
    · exact Or.inl ⟨x, known, by rw [same], by simp [same]⟩
    · exact Or.inr ⟨by simpa using same, by simp [same]⟩
  · refine Or.inr ⟨?_, ?_⟩
    · rw [Array.getElem?_eq_none (by rwa [size_keys])]
      simp
    · rw [List.drop_eq_nil_of_le (by simpa using past)]
      rfl

/-- A walk over two lists of entries that combines each entry of the first with its partner in the
second. -/
structure Partnering (combine : Container → Container → Checked Container) (keepsLone : Bool)
    (walk : List Entry → List Entry → Array Entry → Checked (Array Entry)) : Prop where
  done : ∀ es out, walk [] es out = .ok out
  partner : ∀ d ds es out x,
    (es.dropWhile (fun e => e.key < d.key)).head?.filter (fun e => e.key == d.key) = some x →
      walk (d :: ds) es out = do
        let c ← combine d.container x.container
        walk ds (es.dropWhile (fun e => e.key < d.key)) (Bitmap.pushNonempty out d.key c)
  lone : ∀ d ds es out,
    (es.dropWhile (fun e => e.key < d.key)).head?.filter (fun e => e.key == d.key) = none →
      walk (d :: ds) es out = walk ds (es.dropWhile (fun e => e.key < d.key))
        (if keepsLone then Bitmap.pushNonempty out d.key d.container else out)

theorem partnering_diff : Partnering Container.diff true Bitmap.diffOnto where
  done _ _ := rfl
  partner d ds es out x found := by
    rw [Bitmap.diffOnto]
    rw [found]
  lone d ds es out none := by
    rw [Bitmap.diffOnto]
    simp only
    rw [none]
    rfl

theorem partnering_interInPlace :
    Partnering Container.interInPlace false Bitmap.interInPlaceOnto where
  done _ _ := rfl
  partner d ds es out x found := by
    rw [Bitmap.interInPlaceOnto]
    rw [found]
  lone d ds es out none := by
    rw [Bitmap.interInPlaceOnto]
    rw [none]
    rfl

theorem partnering_diffInPlace : Partnering Container.diffInPlace true Bitmap.diffInPlaceOnto where
  done _ _ := rfl
  partner d ds es out x found := by
    rw [Bitmap.diffInPlaceOnto]
    simp only
    rw [found]
  lone d ds es out none := by
    rw [Bitmap.diffInPlaceOnto]
    simp only
    rw [none]
    rfl

theorem partnerFrom_ofEntries {combine : Container → Container → Checked Container}
    {keepsLone : Bool} {walk : List Entry → List Entry → Array Entry → Checked (Array Entry)}
    (partnering : Partnering combine keepsLone walk) (ds : List Entry) (e : Array Entry) (j : Nat)
    (out : Array Entry) :
    PutsOut ((partnerFrom combine keepsLone (ofEntries e)
      (ds.map fun d => (d.key, d.container)) j).run (ofEntries out))
      (walk ds (e.toList.drop j) out) := by
  induction ds generalizing j out with
  | nil =>
    rw [partnering.done]
    exact rfl
  | cons d ds ih =>
    have partner := partnering.partner d ds (e.toList.drop j) out
    have lone := partnering.lone d ds (e.toList.drop j) out
    rw [← drop_skipBelow] at partner lone
    rw [List.map_cons, partnerFrom]
    simp only
    generalize skipBelow (ofEntries e).keys d.key j = j at *
    rcases partner_cases e d.key j with ⟨x, known, same, found⟩ | ⟨other, none⟩
    · rw [if_pos same, partner x found, run_bind_ok (run_lift_ok (fetch_containers known.here))]
      apply Follows.lift
      intro c _
      rw [run_bind_ok (pushNonempty_ofEntries d.key c)]
      exact ih j _
    · rw [if_neg other, lone none]
      cases keepsLone with
      | true =>
        rw [if_pos rfl, if_pos rfl, run_bind_ok (pushNonempty_ofEntries d.key d.container)]
        exact ih j _
      | false =>
        rw [if_neg Bool.false_ne_true, if_neg Bool.false_ne_true]
        exact ih j _

theorem pushBelow_ofEntries (d : Array Entry) (key : UInt16) (j : Nat) (out : Array Entry) :
    (pushBelow (ofEntries d) key j).run (ofEntries out) = .ok (skipBelow (ofEntries d).keys key j)
      (ofEntries (Bitmap.appendNonempty out
        ((d.toList.drop j).takeWhile (fun e => e.key < key)))) := by
  induction j using pushBelow.induct (ofEntries d) key generalizing out with
  | case1 j more below ih =>
    obtain ⟨x, atX, keyX⟩ := getElem_keys more
    rw [pushBelow, dif_pos more, if_pos below, skipBelow, dif_pos more, if_pos below,
      run_bind_ok (run_lift_ok (fetch_containers atX.here)), keyX,
      run_bind_ok (pushNonempty_ofEntries x.key x.container), ih, atX.rest,
      List.takeWhile_cons_of_pos (by rwa [decide_eq_true_eq, ← keyX])]
    rfl
  | case2 j more notBelow =>
    obtain ⟨x, atX, keyX⟩ := getElem_keys more
    rw [pushBelow, dif_pos more, if_neg notBelow, skipBelow, dif_pos more, if_neg notBelow, atX.rest,
      List.takeWhile_cons_of_neg (by rwa [decide_eq_true_eq, ← keyX])]
    rfl
  | case3 j none =>
    rw [pushBelow, dif_neg none, skipBelow, dif_neg none, drop_of_not_lt none]
    rfl

theorem mergeInPlaceFrom_ofEntries (combine : Container → Container → Checked Container)
    (ds : List Entry) (e : Array Entry) (j : Nat) (inside : j ≤ e.size) (out : Array Entry) :
    PutsOut ((mergeInPlaceFrom combine (ofEntries e) (ds.map fun d => (d.key, d.container)) j).run
      (ofEntries out)) (Bitmap.mergeInPlaceOnto combine ds (e.toList.drop j) out) := by
  induction ds generalizing j out with
  | nil =>
    rw [List.map_nil, mergeInPlaceFrom, Bitmap.mergeInPlaceOnto]
    exact extendFrom_ofEntries e out j inside
  | cons d ds ih =>
    rw [List.map_cons, mergeInPlaceFrom, Bitmap.mergeInPlaceOnto,
      run_bind_ok (pushBelow_ofEntries e d.key j out)]
    generalize Bitmap.appendNonempty out _ = out
    rw [← drop_skipBelow]
    have room := skipBelow_le e d.key j inside
    generalize skipBelow (ofEntries e).keys d.key j = j at *
    rcases Nat.lt_or_ge j e.size with more | none
    · have known := at_of_lt more
      generalize e[j] = x at known
      rw [known.rest, known.key]
      simp only [Option.some.injEq]
      split
      · rw [run_bind_ok (run_lift_ok (fetch_containers known.here))]
        apply Follows.lift
        intro c _
        rw [run_bind_ok (pushNonempty_ofEntries d.key c)]
        exact ih (j + 1) more _
      · rw [run_bind_ok (pushNonempty_ofEntries d.key d.container), ← known.rest]
        exact ih j room _
    · have absent : (ofEntries e).keys[j]? ≠ some d.key := by
        rw [Array.getElem?_eq_none (by rwa [size_keys])]
        simp
      have nothing : e.toList.drop j = [] := List.drop_eq_nil_of_le (by simpa using none)
      rw [if_neg absent, run_bind_ok (pushNonempty_ofEntries d.key d.container), nothing]
      have rest := ih j room (Bitmap.pushNonempty out d.key d.container)
      rwa [nothing] at rest

/-! The operations. -/

theorem ofEntries_nil : ofEntries #[] = empty := by
  rw [ofEntries, Array.map_empty, Array.map_empty, empty]

theorem built_eq {call : Change Unit} {out : Checked (Array Entry)}
    (follows : PutsOut (call.run (ofEntries #[])) out) : built call = out.map ofEntries := by
  rw [ofEntries_nil] at follows
  rw [built]
  cases out with
  | ok entries =>
    have done : call.run empty = _ := follows
    rw [done]
    rfl
  | error fault =>
    obtain ⟨left, failed⟩ := follows
    rw [failed]
    rfl

theorem take_ofEntries (entries : Array Entry) : take.run (ofEntries entries) =
    .ok (entries.toList.map fun e => (e.key, e.container)) (ofEntries #[]) := by
  rw [ofEntries_nil, ← pairs_ofEntries]
  rfl

theorem PutsOut.bitmap {result : EStateM.Result Fault Columns Unit} {out : Checked (Array Entry)}
    (follows : PutsOut result out) : FollowsBitmap result (do return ⟨← out⟩) := by
  cases out with
  | ok entries => exact follows
  | error fault => exact follows

end Roaring.Columns

namespace Roaring

open Columns

namespace SetOp

def onColumns : SetOp → Columns → Columns → Checked Columns
  | inter => Columns.inter
  | union => Columns.union
  | symmDiff => Columns.symmDiff
  | diff => Columns.diff

def inColumns : SetOp → Columns → Change Unit
  | inter => interInPlace
  | union => unionInPlace
  | symmDiff => symmDiffInPlace
  | diff => diffInPlace

end SetOp

/-- Building new columns beside two others fails where building a new bitmap fails, and gives its
columns otherwise. -/
theorem Columns.onColumns_ofEntries (op : SetOp) (a b : Bitmap) :
    op.onColumns (ofEntries a.entries) (ofEntries b.entries) =
      (op.onBitmaps a b).map fun c => ofEntries c.entries := by
  have mapped (out : Checked (Array Entry)) : out.map ofEntries =
      Except.map (fun c : Bitmap => ofEntries c.entries) (do return ⟨← out⟩) := by
    cases out <;> rfl
  cases op with
  | inter =>
    rw [SetOp.onBitmaps, Bitmap.inter, ← mapped]
    exact built_eq (interFrom_ofEntries a.entries b.entries 0 0 #[])
  | union =>
    rw [SetOp.onBitmaps, Bitmap.union, ← mapped]
    exact built_eq (mergeFrom_ofEntries _ _ _ 0 0 (Nat.zero_le _) (Nat.zero_le _) #[])
  | symmDiff =>
    rw [SetOp.onBitmaps, Bitmap.symmDiff, ← mapped]
    exact built_eq (mergeFrom_ofEntries _ _ _ 0 0 (Nat.zero_le _) (Nat.zero_le _) #[])
  | diff =>
    rw [SetOp.onBitmaps, Bitmap.diff, ← mapped, SetOp.onColumns, Columns.diff, pairs_ofEntries]
    exact built_eq (partnerFrom_ofEntries partnering_diff a.entries.toList b.entries 0 #[])

theorem Columns.inColumns_follows (op : SetOp) (a b : Bitmap) :
    FollowsBitmap ((op.inColumns (ofEntries b.entries)).run (ofEntries a.entries))
      (op.inBitmap a b) := by
  cases op with
  | inter =>
    rw [SetOp.inColumns, interInPlace, run_bind_ok (take_ofEntries _)]
    exact (partnerFrom_ofEntries partnering_interInPlace a.entries.toList b.entries 0 #[]).bitmap
  | union =>
    rw [SetOp.inColumns, unionInPlace, run_bind_ok (take_ofEntries _)]
    exact (mergeInPlaceFrom_ofEntries _ _ _ 0 (Nat.zero_le _) #[]).bitmap
  | symmDiff =>
    rw [SetOp.inColumns, symmDiffInPlace, run_bind_ok (take_ofEntries _)]
    exact (mergeInPlaceFrom_ofEntries _ _ _ 0 (Nat.zero_le _) #[]).bitmap
  | diff =>
    rw [SetOp.inColumns, diffInPlace, run_bind_ok (take_ofEntries _)]
    exact (partnerFrom_ofEntries partnering_diffInPlace a.entries.toList b.entries 0 #[]).bitmap

end Roaring
