import Roaring.Container.Count

/-! Sets of 32-bit values. The high half of a value is its key, the low half its place in the
container under that key. A well-formed bitmap has its keys in strictly ascending order and a
non-empty container under each. -/
namespace Roaring

/-- The high and the low half of a value. -/
def split (v : UInt32) : UInt16 × UInt16 := ((v >>> 16).toUInt16, v.toUInt16)

def join (key low : UInt16) : UInt32 := (key.toUInt32 <<< 16) ||| low.toUInt32

structure Entry where
  key : UInt16
  container : Container
deriving DecidableEq

structure Bitmap where
  entries : Array Entry
deriving DecidableEq

namespace Bitmap

def domain : Nat := 4294967296

/-- The keys ascend, and each has a well-formed container with values. -/
structure WellFormed (b : Bitmap) : Prop where
  ascending : b.entries.toList.Pairwise (fun d e => d.key < e.key)
  containers : ∀ e ∈ b.entries, e.container.WellFormed ∧ e.container.isEmpty = false

instance (b : Bitmap) : Decidable b.WellFormed :=
  decidable_of_iff
    (b.entries.toList.Pairwise (fun d e => d.key < e.key) ∧
      ∀ e ∈ b.entries, e.container.WellFormed ∧ e.container.isEmpty = false)
    ⟨fun both => ⟨both.1, both.2⟩, fun formed => ⟨formed.ascending, formed.containers⟩⟩

structure Canonical (b : Bitmap) : Prop extends b.WellFormed where
  dense : ∀ e ∈ b.entries, e.container.Canonical

instance (b : Bitmap) : Decidable b.Canonical :=
  decidable_of_iff (b.WellFormed ∧ ∀ e ∈ b.entries, e.container.Canonical)
    ⟨fun both => ⟨both.1, both.2⟩, fun canonical => ⟨canonical.toWellFormed, canonical.dense⟩⟩

def empty : Bitmap := ⟨#[]⟩

def keys (b : Bitmap) : Array UInt16 := b.entries.map Entry.key

def containerCount (b : Bitmap) : Nat := b.entries.size

def locate (b : Bitmap) (key : UInt16) : Search.Place :=
  Search.locate b.entries (fun e => compare e.key key)

def container? (b : Bitmap) (key : UInt16) : Option Container :=
  match b.locate key with
  | .hit i => b.entries[i]?.map Entry.container
  | .gap _ => none

def cardinality (b : Bitmap) : Nat := b.entries.foldl (fun n e => n + e.container.cardinality) 0

def isEmpty (b : Bitmap) : Bool := b.entries.isEmpty

def contains (b : Bitmap) (v : UInt32) : Bool :=
  (b.container? (split v).1).any (fun c => c.contains (split v).2)

/-- The part of a range under a key, in low halves. -/
def lowRange (range : Span) (key : Nat) : Span :=
  ⟨max range.start (key * 65536) - key * 65536,
    min range.stop (key * 65536 + 65536) - key * 65536⟩

/-- The keys that a non-empty range reaches, in ascending order, each with its part of the range. -/
def keyRanges (range : Span) : List (UInt16 × Span) :=
  (List.range' (range.start / 65536) ((range.stop - 1) / 65536 + 1 - range.start / 65536)).map
    (fun key => (key.toUInt16, lowRange range key))

def containsPart (b : Bitmap) (part : UInt16 × Span) : Checked Bool :=
  match b.container? part.1 with
  | some c => c.containsRange part.2
  | none => .ok false

/-- Whether every value of a range is present. No value is past the domain. -/
def containsRange (b : Bitmap) (range : Span) : Checked Bool :=
  if range.isEmpty then .ok true
  else if domain < range.stop then .ok false
  else (keyRanges range).allM b.containsPart

def min? (b : Bitmap) : Option UInt32 := do
  let e ← b.entries[0]?
  return join e.key (← e.container.min?)

def max? (b : Bitmap) : Option UInt32 := do
  let e ← b.entries.back?
  return join e.key (← e.container.max?)

def rankOnto (key low : UInt16) : List Entry → Nat → Nat
  | [], n => n
  | e :: rest, n =>
    if e.key < key then rankOnto key low rest (n + e.container.cardinality)
    else if e.key = key then n + e.container.rank low
    else n

def rank (b : Bitmap) (v : UInt32) : Nat := rankOnto (split v).1 (split v).2 b.entries.toList 0

def selectFrom : List Entry → Nat → Option UInt32
  | [], _ => none
  | e :: rest, n =>
    if n < e.container.cardinality then (e.container.select n).map (join e.key)
    else selectFrom rest (n - e.container.cardinality)

def select (b : Bitmap) (n : Nat) : Option UInt32 := selectFrom b.entries.toList n

def values (b : Bitmap) : Array UInt32 :=
  b.entries.flatMap (fun e => e.container.values.map (join e.key))

def valuesDescending (b : Bitmap) : Array UInt32 :=
  b.entries.reverse.flatMap (fun e => e.container.valuesDescending.map (join e.key))

def hasRuns (b : Bitmap) : Bool := b.entries.any (fun e => e.container.kind == .runs)

/-- Whether two bitmaps have the same keys and the same values under each. -/
def sameValues (a b : Bitmap) : Bool :=
  a.keys == b.keys &&
    (a.entries.zip b.entries).all (fun (d, e) => d.container.sameValues e.container)

/-! As text, for inspection: the values where they are few, else their number and bounds. -/

def listedUpTo : Nat := 16

def boundText : Option UInt32 → String
  | some v => s!"Some({v})"
  | none => "None"

def text (b : Bitmap) : String :=
  if b.cardinality ≤ listedUpTo then
    "\x7b" ++ String.intercalate ", " (b.values.toList.map toString) ++ "\x7d"
  else
    s!"RoaringBitmap<{b.cardinality} values between {boundText b.min?} and " ++
      s!"{boundText b.max?} in {b.containerCount} containers>"

end Bitmap

end Roaring
