import CodeSignature.Bytes
import CodeSignature.Encoding.Prefixes
import CodeSignature.Instruction.Basic

/-! # ModR/M operands

A ModR/M byte names a register and a place, which is a register or memory. A memory place may take
a SIB byte and a displacement field, which stands right after the last of these bytes.
-/

namespace CodeSignature

inductive Displacement where
  | absent
  | byte
  | dword
deriving DecidableEq, Repr

inductive Addressing where
  /-- Relative to the end of the instruction. -/
  | relative
  /-- A 32-bit address, with a scaled index register if there is one. -/
  | absolute (index : Option String)
  | based (base : String) (index : Option String) (displacement : Displacement)
deriving DecidableEq, Repr

namespace Displacement

def ofMod : Nat → Displacement
  | 1 => .byte
  | 2 => .dword
  | _ => .absent

def size : Displacement → Nat
  | .absent => 0
  | .byte => 1
  | .dword => 4

end Displacement

namespace Addressing

def fieldSize : Addressing → Nat
  | .relative => 4
  | .absolute _ => 4
  | .based _ _ d => d.size

/-- Only a place given by its address alone counts as a memory operand. -/
def kind : Addressing → OperandKind
  | .relative => .memory
  | .absolute none => .memory
  | .absolute (some _) => .displaced
  | .based _ _ .absent => .phrase
  | .based _ _ _ => .displaced

/-- The address, where the instruction determines it: relative addresses wrap at 64 bits. -/
def value? (a : Addressing) (field : List UInt8) (next : Int) : Option Int :=
  match a with
  | .relative => some ((next + Bytes.signed field) % 0x10000000000000000)
  | .absolute none => some (Bytes.unsigned field)
  | _ => none

def plus : Option String → String
  | some index => " + " ++ index
  | none => ""

def plusField (field : List UInt8) : String :=
  let d := Bytes.signed field
  (if 0 ≤ d then " + 0x" else " - 0x") ++ Hex.ofNat d.natAbs

def text (a : Addressing) (field : List UInt8) (next : Int) : String :=
  match a with
  | .relative => "0x" ++ Hex.ofInt ((next + Bytes.signed field) % 0x10000000000000000)
  | .absolute index => "0x" ++ Hex.ofNat (Bytes.unsigned field) ++ plus index
  | .based base index .absent => base ++ plus index
  | .based base index _ => base ++ plus index ++ plusField field

end Addressing

inductive Place where
  | register (number : Nat)
  | memory (addressing : Addressing)
deriving DecidableEq, Repr

/-- The parts of a ModR/M byte. The `reg` field is kept without its extension bit. -/
structure ModRM where
  reg : Nat
  place : Place
deriving DecidableEq, Repr

namespace ModRM

/-- The scaled index register of a SIB byte. Number 4 without extension means that there is none. -/
def index? (mode : Mode) (p : Prefixes) (sib : Nat) : Option String :=
  let number := p.extendIndex (sib / 8 % 8)
  if number = 4 then none
  else
    let register := Register.name number (.native mode) p.rex.isSome
    let scale := 1 <<< (sib / 64)
    some (if scale = 1 then register else register ++ "*" ++ toString scale)

def sibAddressing (mode : Mode) (p : Prefixes) (mod sib : Nat) : Addressing :=
  if mod = 0 ∧ sib % 8 = 5 then .absolute (index? mode p sib)
  else
    .based (Register.name (p.extendBase (sib % 8)) (.native mode) p.rex.isSome)
      (index? mode p sib) (.ofMod mod)

def plainAddressing (mode : Mode) (p : Prefixes) (mod rm : Nat) : Addressing :=
  if mod = 0 ∧ rm = 5 then
    match mode with
    | .bits64 => .relative
    | .bits32 => .absolute none
  else .based (Register.name (p.extendBase rm) (.native mode) p.rex.isSome) none (.ofMod mod)

/-- Reads a ModR/M byte and its SIB byte; the displacement stays in the rest. -/
def read (mode : Mode) (p : Prefixes) : List UInt8 → Option (ModRM × List UInt8)
  | [] => none
  | b :: rest =>
    let mod := b.toNat / 64
    let reg := b.toNat / 8 % 8
    let rm := b.toNat % 8
    if mod = 3 then some (⟨reg, .register (p.extendBase rm)⟩, rest)
    else if rm = 4 then
      match rest with
      | [] => none
      | sib :: rest => some (⟨reg, .memory (sibAddressing mode p mod sib.toNat)⟩, rest)
    else some (⟨reg, .memory (plainAddressing mode p mod rm)⟩, rest)

end ModRM

end CodeSignature
