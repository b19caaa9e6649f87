import CodeSignature.Instruction.Basic

/-! # Masking

Which bytes of an instruction become wildcards: a range that starts at the field of an operand.
-/

namespace CodeSignature

inductive Masking where
  /-- From the first operand field to the end. -/
  | fields
  /-- A length guessed from the size, from the first operand that is no register. -/
  | arm
deriving DecidableEq, Repr

namespace Masking

def armKinds : List OperandKind := [.memory, .far, .near, .phrase, .displaced, .immediate]

/-- One byte of an ARM instruction of four or eight bytes stays literal. -/
def armLength? (size : Int) : Option Int :=
  if size = 4 then some 3 else if size = 8 then some 7 else none

def range? (masking : Masking) (i : Instruction) : Option (Int × Int) :=
  match masking with
  | .fields =>
    (i.operands.find? fun o => o.kind ≠ .void ∧ o.offset ≠ 0).map fun o =>
      (o.offset, i.size - o.offset)
  | .arm =>
    match i.operands.find? fun o => armKinds.contains o.kind with
    | some o => (armLength? i.size).map (o.offset, ·)
    | none => none

def isArm (processor : String) : Bool := processor = "ARM"

def forProcessor (processor : String) : Masking := if isArm processor then .arm else .fields

end Masking

end CodeSignature
