import CodeSignature.Encoding.Template

/-! # The opcode map

What the known opcodes mean. Opcodes with a ModR/M byte may choose among templates by its `reg`
field.
-/

namespace CodeSignature

inductive Opcode where
  | plain (template : Template)
  /-- A ModR/M byte follows, and its `reg` field chooses the template. -/
  | modRM (group : Nat → Option Template)

namespace Opcode

def operands (mnemonic : String) (forms : List OperandForm) : Opcode :=
  .modRM fun _ => some ⟨mnemonic, forms⟩

def arithmeticNames : List String := ["add", "or", "adc", "sbb", "and", "sub", "xor", "cmp"]

def shiftNames : List String := ["rol", "ror", "rcl", "rcr", "shl", "shr", "shl", "sar"]

def conditionNames : List String :=
  ["jo", "jno", "jb", "jae", "je", "jne", "jbe", "ja",
    "js", "jns", "jp", "jnp", "jl", "jge", "jle", "jg"]

/-- The opcodes below 40: eight operations by six operand forms. Between a register and a place of
full width only four of the operations are known. -/
def arithmetic? (row column : Nat) : Option Opcode :=
  let name := arithmeticNames.getD row ""
  let full := row = 0 ∨ row = 5 ∨ row = 6 ∨ row = 7
  match column with
  | 0 => some (operands name [.place .byte, .reg .byte])
  | 1 => if full then some (operands name [.place .operand, .reg .operand]) else none
  | 2 => some (operands name [.reg .byte, .place .byte])
  | 3 => if full then some (operands name [.reg .operand, .place .operand]) else none
  | 4 => some (.plain ⟨name, [.accumulator .byte, .unsigned .byte]⟩)
  | 5 => some (.plain ⟨name, [.accumulator .operand, .signed .operand]⟩)
  | _ => none

def arithmeticGroup (width : WidthRule) (field : FieldRule) : Opcode :=
  .modRM fun reg => some ⟨arithmeticNames.getD reg "", [.place width, .signed field]⟩

def shiftGroup (width : WidthRule) (count : OperandForm) : Opcode :=
  .modRM fun reg => some ⟨shiftNames.getD reg "", [.place width, count]⟩

def onlyZero (template : Template) : Opcode :=
  .modRM fun reg => if reg = 0 then some template else none

def unaryGroup : Opcode :=
  .modRM fun
    | 0 => some ⟨"test", [.place .operand, .signed .operand]⟩
    | 2 => some ⟨"not", [.place .operand]⟩
    | 3 => some ⟨"neg", [.place .operand]⟩
    | 4 => some ⟨"mul", [.place .operand]⟩
    | 5 => some ⟨"imul", [.place .operand]⟩
    | 6 => some ⟨"div", [.place .operand]⟩
    | 7 => some ⟨"idiv", [.place .operand]⟩
    | _ => none

/-- Increment, decrement and the indirect transfers, whose operand is as wide as an address. -/
def indirectGroup : Opcode :=
  .modRM fun
    | 0 => some ⟨"inc", [.place .operand]⟩
    | 1 => some ⟨"dec", [.place .operand]⟩
    | 2 => some ⟨"call", [.place .native]⟩
    | 4 => some ⟨"jmp", [.place .native]⟩
    | 6 => some ⟨"push", [.place .native]⟩
    | _ => none

def single? : Nat → Option Opcode
  | 0x68 => some (.plain ⟨"push", [.signed .dword]⟩)
  | 0x6A => some (.plain ⟨"push", [.signed .byte]⟩)
  | 0x80 => some (arithmeticGroup .byte .byte)
  | 0x81 => some (arithmeticGroup .operand .operand)
  | 0x83 => some (arithmeticGroup .operand .byte)
  | 0x84 => some (operands "test" [.place .byte, .reg .byte])
  | 0x85 => some (operands "test" [.place .operand, .reg .operand])
  | 0x88 => some (operands "mov" [.place .byte, .reg .byte])
  | 0x89 => some (operands "mov" [.place .operand, .reg .operand])
  | 0x8A => some (operands "mov" [.reg .byte, .place .byte])
  | 0x8B => some (operands "mov" [.reg .operand, .place .operand])
  | 0x8D => some (operands "lea" [.reg .operand, .place .operand])
  | 0x8F => some (onlyZero ⟨"pop", [.place .stack]⟩)
  | 0x90 => some (.plain ⟨"nop", []⟩)
  | 0xC2 => some (.plain ⟨"ret", [.unsigned .word]⟩)
  | 0xC3 => some (.plain ⟨"ret", []⟩)
  | 0xC6 => some (onlyZero ⟨"mov", [.place .byte, .signed .byte]⟩)
  | 0xC7 => some (onlyZero ⟨"mov", [.place .operand, .signed .operand]⟩)
  | 0xC9 => some (.plain ⟨"leave", []⟩)
  | 0xCC => some (.plain ⟨"int", [.trap]⟩)
  | 0xD0 => some (shiftGroup .byte .one)
  | 0xD1 => some (shiftGroup .operand .one)
  | 0xD2 => some (shiftGroup .byte .counter)
  | 0xD3 => some (shiftGroup .operand .counter)
  | 0xE8 => some (.plain ⟨"call", [.branch .dword]⟩)
  | 0xE9 => some (.plain ⟨"jmp", [.branch .dword]⟩)
  | 0xEB => some (.plain ⟨"jmp", [.branch .byte]⟩)
  | 0xF1 => some (.plain ⟨"icebp", []⟩)
  | 0xF7 => some unaryGroup
  | 0xFF => some indirectGroup
  | _ => none

/-- The meaning of an opcode of one byte. Increments and decrements of a register are known in
32-bit mode only. -/
def oneByte? (mode : Mode) (opcode : UInt8) : Option Opcode :=
  let n := opcode.toNat
  if n < 0x40 then arithmetic? (n / 8) (n % 8)
  else if n < 0x50 then
    match mode with
    | .bits32 => some (.plain ⟨if n < 0x48 then "inc" else "dec", [.low .operand]⟩)
    | .bits64 => none
  else if n < 0x58 then some (.plain ⟨"push", [.low .native]⟩)
  else if n < 0x60 then some (.plain ⟨"pop", [.low .native]⟩)
  else if 0x70 ≤ n ∧ n < 0x80 then
    some (.plain ⟨conditionNames.getD (n % 16) "", [.branch .byte]⟩)
  else if 0xB8 ≤ n ∧ n < 0xC0 then some (.plain ⟨"mov", [.low .operand, .signed .full]⟩)
  else single? n

def twoByte? (opcode : UInt8) : Option Opcode :=
  let n := opcode.toNat
  if 0x80 ≤ n ∧ n < 0x90 then
    some (.plain ⟨conditionNames.getD (n % 16) "", [.branch .dword]⟩)
  else
    match n with
    | 0x1F => some (operands "nop" [.place .operand])
    | 0xAF => some (operands "imul" [.reg .operand, .place .operand])
    | 0xB6 => some (operands "movzx" [.reg .operand, .place .byte])
    | 0xB7 => some (operands "movzx" [.reg .operand, .place .word])
    | 0xBE => some (operands "movsx" [.reg .operand, .place .byte])
    | 0xBF => some (operands "movsx" [.reg .operand, .place .word])
    | _ => none

def read (mode : Mode) : List UInt8 → Option (Opcode × UInt8 × List UInt8)
  | [] => none
  | b :: rest =>
    if b = 0x0F then
      match rest with
      | [] => none
      | second :: rest => (twoByte? second).map (·, second, rest)
    else (oneByte? mode b).map (·, b, rest)

end Opcode

end CodeSignature
