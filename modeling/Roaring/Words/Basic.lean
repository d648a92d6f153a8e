import Roaring.Word

/-! The 65536 bits of a dense set as 1024 words. Position `p` is bit `p % 64` of word `p / 64`;
positions past the end are clear. -/
namespace Roaring

abbrev Words := Vector Word 1024

namespace Words

def zero : Words := Vector.replicate 1024 0

def full : Words := Vector.replicate 1024 (~~~0)

def word (ws : Words) (i : Nat) : Word := ws.getD i 0

def test (ws : Words) (p : Nat) : Bool := Word.test (ws.word (p / 64)) (p % 64)

def setWord (ws : Words) (i : Nat) (w : Word) : Words := ws.setIfInBounds i w

def setBit (ws : Words) (p : Nat) : Words :=
  ws.setWord (p / 64) (ws.word (p / 64) ||| Word.single (p % 64))

def countOnto (ws : Words) : (n i total : Nat) → Nat
  | 0, _, total => total
  | n + 1, i, total => ws.countOnto n (i + 1) (total + Word.popCount (ws.word i))

def count (ws : Words) : Nat := ws.countOnto 1024 0 0

def positions (ws : Words) : Array UInt16 := ((Array.range 65536).filter ws.test).map Nat.toUInt16

/-- The number of set positions that are at most `p`, for `p` below 65536. -/
def rank (ws : Words) (p : Nat) : Nat :=
  ws.countOnto (p / 64) 0 0 + Word.popCount (ws.word (p / 64) <<< (63 - p % 64).toUInt64)

/-- The position with `k` set positions below it, looked for in the `n` words from index `i` on. -/
def selectFrom (ws : Words) : (n i k : Nat) → Option Nat
  | 0, _, _ => none
  | n + 1, i, k =>
    let held := Word.popCount (ws.word i)
    if k < held then some (64 * i + Word.nthSet (ws.word i) k)
    else ws.selectFrom n (i + 1) (k - held)

def select (ws : Words) (k : Nat) : Option Nat := ws.selectFrom 1024 0 k

/-! Scans for the first and the last set position, and for the positions at which maximal ranges of set
positions start. -/

def firstSetIn (ws : Words) : (n i : Nat) → Option Nat
  | 0, _ => none
  | n + 1, i =>
    if ws.word i != 0 then some (64 * i + Word.trailingZeros (ws.word i))
    else ws.firstSetIn n (i + 1)

def lastSetIn (ws : Words) : (n : Nat) → Option Nat
  | 0 => none
  | n + 1 =>
    if ws.word n != 0 then some (64 * n + 63 - Word.leadingZeros (ws.word n))
    else ws.lastSetIn n

/-- The number of set positions in word `i` whose predecessor is clear. The predecessor of bit 0 is
the top bit of the word before. -/
def runStartsAt (ws : Words) (i : Nat) : Nat :=
  let before := if i = 0 then 0 else ws.word (i - 1)
  Word.popCount (ws.word i &&& ~~~((ws.word i <<< 1) ||| (before >>> 63)))

def runStartsOnto (ws : Words) : (n i total : Nat) → Nat
  | 0, _, total => total
  | n + 1, i, total => ws.runStartsOnto n (i + 1) (total + ws.runStartsAt i)

def countRuns (ws : Words) : Nat := ws.runStartsOnto 1024 0 0

/-- Whether `total` and the run starts of the next `chunks` chunks of 64 words exceed `limit`;
answered at the end of the first chunk that shows it. -/
def runsExceedFrom (ws : Words) (limit : Nat) : (chunks i total : Nat) → Bool
  | 0, _, _ => false
  | chunks + 1, i, total =>
    let total := ws.runStartsOnto 64 i total
    limit < total || ws.runsExceedFrom limit chunks (i + 64) total

def countRunsExceeds (ws : Words) (limit : Nat) : Bool := ws.runsExceedFrom limit 16 0 0

end Words

end Roaring
