import CodeSignature.Encoding.ModRM

/-! # Instruction templates

A template is what an opcode means before its prefixes and its ModR/M byte are known: a mnemonic
and a list of operand forms. Resolved, an operand form becomes a slot, which only lacks the bytes
of the displacement and of the immediate field.
-/

namespace CodeSignature

/-- How the width of an operand follows from the prefixes. -/
inductive WidthRule where
  | byte
  | word
  /-- 32 bits unless a prefix says otherwise. -/
  | operand
  | native
  /-- The width of an address unless a prefix says otherwise. -/
  | stack
deriving DecidableEq, Repr

inductive FieldRule where
  | byte
  | word
  | dword
  /-- As wide as the operand, but at most four bytes. -/
  | operand
  | full
deriving DecidableEq, Repr

inductive OperandForm where
  | place (width : WidthRule)
  | reg (width : WidthRule)
  /-- The register named by the low three bits of the opcode. -/
  | low (width : WidthRule)
  /-- Register number 0. -/
  | accumulator (width : WidthRule)
  | signed (field : FieldRule)
  | unsigned (field : FieldRule)
  | branch (field : FieldRule)
  | counter
  | one
  /-- The trap number 3, which is text alone. -/
  | trap
deriving DecidableEq, Repr

structure Template where
  mnemonic : String
  operands : List OperandForm
deriving DecidableEq, Repr

namespace WidthRule

/-- The operand size after prefixes: REX.W wins over the operand size prefix. -/
def prefixed (p : Prefixes) (default : Width) : Width :=
  if p.wide then .qword else if p.narrow then .word else default

def resolve (mode : Mode) (p : Prefixes) : WidthRule → Width
  | .byte => .byte
  | .word => .word
  | .operand => prefixed p .dword
  | .native => .native mode
  | .stack => prefixed p (.native mode)

end WidthRule

namespace FieldRule

def resolve (p : Prefixes) : FieldRule → Nat
  | .byte => 1
  | .word => 2
  | .dword => 4
  | .operand => if WidthRule.prefixed p .dword = .word then 2 else 4
  | .full =>
    match WidthRule.prefixed p .dword with
    | .qword => 8
    | .word => 2
    | _ => 4

theorem resolve_pos (p : Prefixes) (r : FieldRule) : 0 < r.resolve p := by
  cases r <;> simp only [resolve] <;> (try omega) <;> split <;> omega

end FieldRule

def OperandForm.field? : OperandForm → Option FieldRule
  | .signed r => some r
  | .unsigned r => some r
  | .branch r => some r
  | _ => none

/-- An operand that only lacks the bytes of its field. -/
inductive Slot where
  | register (name : String)
  | memory (width : Width) (segment : Option String) (addressing : Addressing)
  | signed
  | unsigned
  | branch
  | one
  | trap
deriving DecidableEq, Repr

namespace OperandForm

def slot (mode : Mode) (p : Prefixes) (opcode : UInt8) (m : ModRM) : OperandForm → Slot
  | .place w =>
    match m.place with
    | .register number => .register (Register.name number (w.resolve mode p) p.rex.isSome)
    | .memory a => .memory (w.resolve mode p) p.segment? a
  | .reg w => .register (Register.name (p.extendReg m.reg) (w.resolve mode p) p.rex.isSome)
  | .low w =>
    .register
      (Register.name (p.extendBase (opcode.toNat % 8)) (w.resolve mode p) p.rex.isSome)
  | .accumulator w => .register (Register.name 0 (w.resolve mode p) p.rex.isSome)
  | .signed _ => .signed
  | .unsigned _ => .unsigned
  | .branch _ => .branch
  | .counter => .register "cl"
  | .one => .one
  | .trap => .trap

end OperandForm

def Slot.displacementSize : Slot → Nat
  | .memory _ _ a => a.fieldSize
  | _ => 0

namespace Template

def immediateSize (p : Prefixes) (t : Template) : Nat :=
  ((t.operands.findSome? OperandForm.field?).map (·.resolve p)).getD 0

end Template

end CodeSignature
