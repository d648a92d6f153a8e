import Roaring.Bitmap.Basic
import Roaring.Container.Cursor

/-! Taking the values of a bitmap from both ends, and in ascending order with their ranks. -/
namespace Roaring

structure KeyedCursor where
  key : UInt16
  rest : Container.Cursor

namespace KeyedCursor

def ofEntry (e : Entry) : KeyedCursor := ⟨e.key, e.container.cursor⟩

def next (c : KeyedCursor) : Option UInt32 × KeyedCursor :=
  let (low, rest) := c.rest.next
  (low.map (join c.key), ⟨c.key, rest⟩)

def nextBack (c : KeyedCursor) : Option UInt32 × KeyedCursor :=
  let (low, rest) := c.rest.nextBack
  (low.map (join c.key), ⟨c.key, rest⟩)

instance : DoubleEnded KeyedCursor UInt32 := ⟨next, nextBack⟩

end KeyedCursor

namespace Bitmap

abbrev Cursor := Flattened Entry KeyedCursor

def cursor (b : Bitmap) : Cursor := Flattened.ofArray b.entries

def Cursor.next (c : Cursor) : Option UInt32 × Cursor := Flattened.next KeyedCursor.ofEntry c

def Cursor.nextBack (c : Cursor) : Option UInt32 × Cursor :=
  Flattened.nextBack KeyedCursor.ofEntry c

/-- An ascending walk that counts the values passed. -/
structure RankCursor where
  rest : Cursor
  rank : Nat

def rankCursor (b : Bitmap) : RankCursor := ⟨b.cursor, 0⟩

def RankCursor.next (c : RankCursor) : Option (Nat × UInt32) × RankCursor :=
  match c.rest.next with
  | (some v, rest) => (some (c.rank + 1, v), ⟨rest, c.rank + 1⟩)
  | (none, rest) => (none, ⟨rest, c.rank⟩)

end Bitmap

end Roaring
