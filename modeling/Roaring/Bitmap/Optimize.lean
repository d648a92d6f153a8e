import Roaring.Codec.Size

/-! Re-encoding a bitmap. Each container on its own would take its smallest encoding; but the first
set of runs changes the header of the serialized form, so that the choices together can cost more
than they save. -/
namespace Roaring.Bitmap

def optimalKinds (b : Bitmap) : Array Kind := b.entries.map (fun e => e.container.inferOptimalKind)

/-- The encodings to take: the smallest ones, but no change to or from runs when those would make
the serialized form larger. -/
def plannedKinds (b : Bitmap) : Array Kind :=
  let kinds := b.optimalKinds
  if b.serializedSize < b.serializedSizeAs kinds then
    (b.entries.zip kinds).map fun (e, kind) =>
      if kind = .runs ∨ e.container.kind = .runs then e.container.kind else kind
  else kinds

structure Optimized where
  bitmap : Bitmap
  converted : Nat

def Optimized.leftRuns (o : Optimized) : Bool := o.bitmap.hasRuns

def runOptimize (b : Bitmap) : Checked Optimized := do
  let planned := b.entries.zip b.plannedKinds
  let entries ← planned.mapM fun (e, kind) => return ⟨e.key, ← e.container.convertTo kind⟩
  return ⟨⟨entries⟩, planned.countP (fun (e, kind) => e.container.kind != kind)⟩

end Roaring.Bitmap
