/-! # Registers

Names of the general registers by number and operand width.
-/

namespace CodeSignature

inductive Mode where
  | bits32
  | bits64
deriving DecidableEq, Repr

inductive Width where
  | byte
  | word
  | dword
  | qword
deriving DecidableEq, Repr

namespace Width

/-- The word used in front of `ptr`. -/
def name : Width → String
  | .byte => "byte"
  | .word => "word"
  | .dword => "dword"
  | .qword => "qword"

def native : Mode → Width
  | .bits32 => .dword
  | .bits64 => .qword

end Width

namespace Register

def qwordNames : List String :=
  ["rax", "rcx", "rdx", "rbx", "rsp", "rbp", "rsi", "rdi",
    "r8", "r9", "r10", "r11", "r12", "r13", "r14", "r15"]

def dwordNames : List String :=
  ["eax", "ecx", "edx", "ebx", "esp", "ebp", "esi", "edi",
    "r8d", "r9d", "r10d", "r11d", "r12d", "r13d", "r14d", "r15d"]

def wordNames : List String :=
  ["ax", "cx", "dx", "bx", "sp", "bp", "si", "di",
    "r8w", "r9w", "r10w", "r11w", "r12w", "r13w", "r14w", "r15w"]

def legacyByteNames : List String := ["al", "cl", "dl", "bl", "ah", "ch", "dh", "bh"]

def extendedByteNames : List String :=
  ["al", "cl", "dl", "bl", "spl", "bpl", "sil", "dil",
    "r8b", "r9b", "r10b", "r11b", "r12b", "r13b", "r14b", "r15b"]

/-- The register of a number and a width; `extended` tells whether a REX byte is present. -/
def name (number : Nat) (width : Width) (extended : Bool) : String :=
  let names := match width with
    | .qword => qwordNames
    | .dword => dwordNames
    | .word => wordNames
    | .byte => if extended then extendedByteNames else legacyByteNames
  names.getD number ""

example : name 4 .byte false = "ah" ∧ name 4 .byte true = "spl" ∧ name 12 .word true = "r12w" := by
  decide

end Register

end CodeSignature
