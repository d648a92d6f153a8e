import Roaring.Codec.Writer

/-! Reading the serialized form. The parts are taken as they are written: neither the order of keys
and values, nor the cardinality of bits, nor the positions of the payloads are looked at. -/
namespace Roaring.Codec

inductive Part where
  | cookie
  | containerCount
  | runFlags
  | descriptors
  | offsets
  | runPayload
  | bitPayload
  | arrayPayload
deriving DecidableEq

def Part.name : Part → String
  | .cookie => "cookie"
  | .containerCount => "container count"
  | .runFlags => "run bitset"
  | .descriptors => "descriptive header"
  | .offsets => "offset header"
  | .runPayload => "run container"
  | .bitPayload => "bitmap container"
  | .arrayPayload => "array container"

abbrev Reader := StateT (List UInt8) (Except Error)

def takeBytes (part : Part) (count : Nat) : Reader (List UInt8) := fun unread =>
  let taken := unread.take count
  if taken.length = count then .ok (taken, unread.drop count)
  else .error (.stream part.name .truncated)

def takeNumber (part : Part) (width : Nat) : Reader Nat := do
  return numberOf (← takeBytes part width)

/-- Takes `count` items one after the other and adds them to `out`. -/
@[specialize] def takeOnto {α : Type} (item : Reader α) :
    (count : Nat) → Array α → List UInt8 → Except Error (Array α × List UInt8)
  | 0, out, unread => .ok (out, unread)
  | count + 1, out, unread =>
    match item unread with
    | .error e => .error e
    | .ok (a, unread) => takeOnto item count (out.push a) unread

@[inline] def takeMany {α : Type} (count : Nat) (item : Reader α) : Reader (Array α) :=
  takeOnto item count #[]

def takePreamble : Reader (Nat × Option (Array UInt8)) := do
  let cookie ← takeNumber .cookie 4
  if cookie = plainCookie then
    let count ← takeNumber .containerCount 4
    if 65536 < count then throw (.invalidContainerCount count)
    return (count, none)
  else if cookie % 65536 = runCookie then
    let count := cookie / 65536 + 1
    let flags ← takeBytes .runFlags ((count + 7) / 8)
    return (count, some flags.toArray)
  else throw (.invalidCookie cookie.toUInt32)

def isFlagged (flags : Option (Array UInt8)) (i : Nat) : Bool :=
  flags.any (fun bytes => bytes.getD (i / 8) 0 &&& (1 <<< (i % 8).toUInt8) != 0)

def takeDescriptor : Reader (UInt16 × Nat) := do
  let key ← takeNumber .descriptors 2
  let cardinality ← takeNumber .descriptors 2
  return (key.toUInt16, cardinality + 1)

def takeRun : Reader Run := do
  let start ← takeNumber .runPayload 2
  let length ← takeNumber .runPayload 2
  return ⟨start.toUInt16, length.toUInt16⟩

def takeWords : Reader Words := do
  let words ← takeMany 1024 (return (← takeNumber .bitPayload 8).toUInt64)
  return Vector.ofFn (fun i => words.getD i 0)

def takePayload (isRun : Bool) (cardinality : Nat) : Reader Container := do
  if isRun then
    let count ← takeNumber .runPayload 2
    return .runs ⟨← takeMany count takeRun⟩
  else if ArraySet.maxLength < cardinality then
    return .bits ⟨← takeWords, cardinality.toUInt64⟩
  else
    return .array ⟨← takeMany cardinality (return (← takeNumber .arrayPayload 2).toUInt16)⟩

/-- Takes the payloads of the described containers, the first of which has index `i`. -/
def takePayloads (flags : Option (Array UInt8)) :
    List (UInt16 × Nat) → (i : Nat) → Array Entry → List UInt8 →
      Except Error (Array Entry × List UInt8)
  | [], _, out, unread => .ok (out, unread)
  | (key, cardinality) :: rest, i, out, unread =>
    match takePayload (isFlagged flags i) cardinality unread with
    | .error e => .error e
    | .ok (c, unread) => takePayloads flags rest (i + 1) (out.push ⟨key, c⟩) unread

def takeBitmap : Reader Bitmap := do
  let (count, flags) ← takePreamble
  let descriptors ← takeMany count takeDescriptor
  if writesOffsets count flags.isSome then
    let _ ← takeMany count (takeNumber .offsets 4)
  let entries ← takePayloads flags descriptors.toList 0 #[]
  return ⟨entries⟩

end Roaring.Codec

namespace Roaring.Bitmap

/-- Reads a bitmap from the front of some bytes; what follows it stays unread. -/
def deserialize (bytes : List UInt8) : Except Error (Bitmap × List UInt8) := Codec.takeBitmap bytes

/-- Reads a bitmap and ignores what follows it. -/
def deserializeSlice (bytes : List UInt8) : Except Error Bitmap := return (← deserialize bytes).1

end Roaring.Bitmap
