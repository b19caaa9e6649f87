import CodeSignature.Text.Hex

/-! # Instructions

A decoded instruction: where it lies, its bytes, its text, and for each operand the position of its
encoded field and the value the field stands for.
-/

namespace CodeSignature

inductive OperandKind where
  | void
  | register
  /-- A memory place given by its address alone. -/
  | memory
  /-- A memory place given by registers alone. -/
  | phrase
  | displaced
  | immediate
  | far
  | near
deriving DecidableEq, Repr

/-- An operand. Offset 0 means that no encoded field is known. -/
structure Operand where
  kind : OperandKind
  offset : Int
  value : Option Int
deriving DecidableEq, Repr

structure Instruction where
  address : Int
  size : Int
  mnemonic : String
  operandText : String
  bytes : List UInt8
  /-- Set on the empty entry that marks the end of the code. -/
  atEnd : Bool
  operands : List Operand
deriving DecidableEq, Repr

namespace Instruction

def next (i : Instruction) : Int := i.address + i.size

/-- A listing line: address, bytes in a column of 24 characters, mnemonic and operands. -/
def line (i : Instruction) : String :=
  let bytes := String.intercalate " " (i.bytes.map fun b => String.ofList (Hex.lowerByte b))
  let column := bytes ++ String.ofList (List.replicate (24 - bytes.length) ' ')
  "0x" ++ Hex.padded 8 i.address ++ ": " ++ column ++ " " ++ i.mnemonic ++ " " ++ i.operandText

/-- The address that a branch goes to, if its first branch operand has one. -/
def branchTarget (i : Instruction) : Option Int :=
  (i.operands.find? fun o => o.kind = .near ∨ o.kind = .far).bind (·.value)

end Instruction

end CodeSignature
