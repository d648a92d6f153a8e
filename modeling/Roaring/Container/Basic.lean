import Roaring.Container.Kind

/-! A container holds a set of 16-bit values in one of three encodings. All encodings answer the
same questions; what they answer is fixed by the values alone when the container is well formed. -/
namespace Roaring

inductive Container where
  | array (values : ArraySet)
  | bits (bits : BitSet)
  | runs (runs : RunSet)
deriving DecidableEq

namespace Container

def domain : Nat := 65536

/-- The encoding keeps its own promises. A set of bits may be sparse. -/
def WellFormed : Container → Prop
  | .array s => s.WellFormed
  | .bits b => b.WellFormed
  | .runs r => r.WellFormed

instance : (c : Container) → Decidable c.WellFormed
  | .array s => inferInstanceAs (Decidable s.WellFormed)
  | .bits b => inferInstanceAs (Decidable b.WellFormed)
  | .runs r => inferInstanceAs (Decidable r.WellFormed)

/-- Well formed, and a set of bits holds more values than a list may. -/
def Canonical (c : Container) : Prop :=
  c.WellFormed ∧ ∀ b, c = .bits b → ArraySet.maxLength < b.cardinality

instance : (c : Container) → Decidable c.Canonical
  | .array s => decidable_of_iff s.WellFormed ⟨fun formed => ⟨formed, nofun⟩, And.left⟩
  | .runs r => decidable_of_iff r.WellFormed ⟨fun formed => ⟨formed, nofun⟩, And.left⟩
  | .bits b =>
    decidable_of_iff (b.WellFormed ∧ ArraySet.maxLength < b.cardinality)
      ⟨fun both => ⟨both.1, fun _ same => Container.bits.inj same ▸ both.2⟩,
        fun canonical => ⟨canonical.1, canonical.2 b rfl⟩⟩

def empty : Container := .array .empty

def full : Container := .runs .full

def ofSortedValues (values : Array UInt16) : Container :=
  if ArraySet.maxLength < values.size then .bits (.ofSortedValues values) else .array ⟨values⟩

/-- A set of bits, as a list when it is sparse. -/
def ofBits (b : BitSet) : Container :=
  if b.cardinality ≤ ArraySet.maxLength then .array b.toArraySet else .bits b

def kind : Container → Kind
  | .array _ => .array
  | .bits _ => .bits
  | .runs _ => .runs

def cardinality : Container → Nat
  | .array s => s.length
  | .bits b => b.cardinality
  | .runs r => r.cardinality

def isEmpty : Container → Bool
  | .array s => s.isEmpty
  | .bits b => b.isEmpty
  | .runs r => r.isEmpty

/-- Whether all values are present; a list cannot hold them. -/
def isFull : Container → Bool
  | .array _ => false
  | .bits b => b.isFull
  | .runs r => r.isFull

def countRuns : Container → Nat
  | .array s => s.countRuns
  | .bits b => b.countRuns
  | .runs r => r.countRuns

def contains : Container → UInt16 → Bool
  | .array s, v => s.contains v
  | .bits b, v => b.contains v
  | .runs r, v => r.contains v

def containsRange : Container → Span → Checked Bool
  | .array s, range => .ok (s.containsRange range)
  | .bits b, range => b.containsRange range
  | .runs r, range => .ok (r.containsRange range)

def rank : Container → UInt16 → Nat
  | .array s, v => s.rank v
  | .bits b, v => b.rank v
  | .runs r, v => r.rank v

def select : Container → Nat → Option UInt16
  | .array s, n => s.select n
  | .bits b, n => b.select n
  | .runs r, n => r.select n

def min? : Container → Option UInt16
  | .array s => s.min?
  | .bits b => b.min?
  | .runs r => r.min?

def max? : Container → Option UInt16
  | .array s => s.max?
  | .bits b => b.max?
  | .runs r => r.max?

def values : Container → Array UInt16
  | .array s => s.values
  | .bits b => b.values
  | .runs r => r.values

def valuesDescending : Container → Array UInt16
  | .array s => s.values.reverse
  | .bits b => b.valuesDescending
  | .runs r => r.values.reverse

/-- The values in ascending order, each with the number of values up to it. -/
def ranked (c : Container) : Array (Nat × UInt16) := c.values.mapIdx (fun i v => (i + 1, v))

def serializedSize : Container → Nat
  | .array s => s.serializedSize
  | .bits _ => BitSet.serializedSize
  | .runs r => r.serializedSize

/-- Fails when the encoding breaks one of its promises that can be seen on the list itself; the
kept cardinality of bits is the business of validation. -/
def checkInvariants : Container → Checked Unit
  | .array s => s.checkInvariants
  | .bits _ => .ok ()
  | .runs r => r.checkInvariants

/-- Whether two containers hold the same values, whatever their encodings. Equal encodings are
compared as they are stored, without the kept cardinality. -/
def sameValues : Container → Container → Bool
  | .array s, .array t => s == t
  | .runs r, .runs q => r == q
  | .bits a, .bits b => a.words == b.words
  | c, d => c.cardinality == d.cardinality && c.values == d.values

/-! As text, for inspection. -/

def bracketed (texts : List String) : String := "[" ++ String.intercalate ", " texts ++ "]"

/-- Bits show no more than how many there are. -/
def text : Container → String
  | .array s => s!"Array({bracketed (s.values.toList.map toString)})"
  | .bits b => s!"Bitmap(BitmapContainer \x7b cardinality: {b.cardinality} \x7d)"
  | .runs r => s!"Run({bracketed (r.runs.toList.map runText)})"
where
  runText (r : Run) : String := s!"{r.start}..={r.last}"

end Container

end Roaring
