import Roaring.Fault

/-! A verdict is the outcome of validation: success, or the first violation with the parameters that
locate it. Verdicts are made by functions that insist on the right number of parameters. -/
namespace Roaring.Validation

structure Verdict where
  code : Code
  containerCode : ContainerCode
  params : List Int
deriving DecidableEq

namespace Verdict

def ok : Verdict := ⟨.ok, .bitmapViolation, []⟩

def invalid (code : Code) (params : List Int) : Checked Verdict :=
  if params.length = code.paramCount then .ok ⟨code, .bitmapViolation, params⟩
  else .error (.codeParams code params.length)

def invalidContainer (code : ContainerCode) (params : List Int) : Checked Verdict :=
  if params.length = code.paramCount then .ok ⟨.invalidContainer, code, params⟩
  else .error (.containerCodeParams code params.length)

/-- Puts the key of the container in front of the parameters, once. -/
def prependKey (v : Verdict) (key : UInt16) : Checked Verdict :=
  if v.code ≠ .invalidContainer then .error (.keyOfOtherVerdict v.code)
  else if v.params.length ≠ v.containerCode.paramCount then .error .keyedTwice
  else .ok { v with params := (key.toNat : Int) :: v.params }

def isValid (v : Verdict) : Bool := v.code == .ok

def text (v : Verdict) : String :=
  let params := String.intercalate ", " (v.params.map toString)
  s!"ValidationResult\x7bcode={v.code.name}, sub_code={v.containerCode.name}, " ++
    s!"params=[{params}]\x7d"

end Verdict

end Roaring.Validation
