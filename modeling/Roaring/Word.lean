/-! Words of 64 bits, bit 0 lowest. Every operation is described by the bits it tests, sets or
counts. -/
namespace Roaring

abbrev Word := UInt64

namespace Word

/-- Whether bit `i` is set; asked for `i < 64` only. -/
def test (w : Word) (i : Nat) : Bool := (w >>> i.toUInt64) &&& 1 != 0

/-- The word whose only set bit is `i`. -/
def single (i : Nat) : Word := (1 : Word) <<< i.toUInt64

/-- The word whose lowest `k` bits are set. -/
def ones (k : Nat) : Word := if k = 0 then 0 else (~~~(0 : Word)) >>> (64 - k).toUInt64

/-- The word whose bits from `lo` up to, but not including, `hi` are set. -/
def between (lo hi : Nat) : Word := ones hi &&& ~~~(ones lo)

def countLow : Nat → Word → Nat → Nat
  | 0, _, acc => acc
  | n + 1, w, acc => if w == 0 then acc else countLow n (w >>> 1) (acc + (w &&& 1).toNat)

def popCount (w : Word) : Nat := countLow 64 w 0

/-- The distance from bit 0 to the lowest set bit, at most `n`. -/
def zerosBelow : Nat → Word → Nat → Nat
  | 0, _, acc => acc
  | n + 1, w, acc => if w &&& 1 != 0 then acc else zerosBelow n (w >>> 1) (acc + 1)

/-- The position of the lowest set bit, 64 for the word without one. -/
def trailingZeros (w : Word) : Nat := zerosBelow 64 w 0

/-- The distance from bit 63 to the highest set bit, at most `n`. -/
def zerosAbove : Nat → Word → Nat → Nat
  | 0, _, acc => acc
  | n + 1, w, acc => if w >>> 63 != 0 then acc else zerosAbove n (w <<< 1) (acc + 1)

/-- The number of clear bits above the highest set bit, 64 for the word without one. -/
def leadingZeros (w : Word) : Nat := zerosAbove 64 w 0

/-- The position, counted from `pos`, of the set bit that has `k` set bits below it. -/
def nthFrom : Nat → Word → Nat → Nat → Nat
  | 0, _, _, pos => pos
  | n + 1, w, k, pos =>
    if w &&& 1 != 0 then
      match k with
      | 0 => pos
      | k + 1 => nthFrom n (w >>> 1) k (pos + 1)
    else nthFrom n (w >>> 1) k (pos + 1)

def nthSet (w : Word) (k : Nat) : Nat := nthFrom 64 w k 0

end Word

end Roaring
