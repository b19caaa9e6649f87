import CodeSignature.Encoding.Register

/-! # Instruction prefixes

The bytes in front of an opcode: any number of legacy prefixes in any order and, in 64-bit mode,
at most one REX byte after them.
-/

namespace CodeSignature

def segmentOverride? (b : UInt8) : Option String :=
  match b.toNat with
  | 0x26 => some "es"
  | 0x2E => some "cs"
  | 0x36 => some "ss"
  | 0x3E => some "ds"
  | 0x64 => some "fs"
  | 0x65 => some "gs"
  | _ => none

/-- Operand size, address size, lock, repetition and segment override bytes. -/
def isLegacyPrefix (b : UInt8) : Bool :=
  b = 0x66 || b = 0x67 || b = 0xF0 || b = 0xF2 || b = 0xF3 || (segmentOverride? b).isSome

/-- A REX byte is `0100WRXB`. -/
def isRex (b : UInt8) : Bool := b.toNat / 16 = 4

structure Prefixes where
  legacy : List UInt8
  rex : Option UInt8
deriving DecidableEq, Repr

namespace Prefixes

def read (mode : Mode) (bytes : List UInt8) : Prefixes × List UInt8 :=
  let legacy := bytes.takeWhile isLegacyPrefix
  match mode, bytes.dropWhile isLegacyPrefix with
  | .bits64, b :: rest => if isRex b then (⟨legacy, some b⟩, rest) else (⟨legacy, none⟩, b :: rest)
  | _, rest => (⟨legacy, none⟩, rest)

def size (p : Prefixes) : Nat := p.legacy.length + (if p.rex.isSome then 1 else 0)

/-- One bit of the REX byte; it is clear if there is no REX byte. -/
def rexBit (p : Prefixes) (bit : Nat) : Bool := (p.rex.getD 0).toNat.testBit bit

def wide (p : Prefixes) : Bool := p.rexBit 3

def extend (p : Prefixes) (bit number : Nat) : Nat := if p.rexBit bit then number + 8 else number

def extendReg (p : Prefixes) (number : Nat) : Nat := p.extend 2 number

def extendIndex (p : Prefixes) (number : Nat) : Nat := p.extend 1 number

/-- The extension of a base register or of a register in an opcode. -/
def extendBase (p : Prefixes) (number : Nat) : Nat := p.extend 0 number

def narrow (p : Prefixes) : Bool := p.legacy.contains 0x66

def segment? (p : Prefixes) : Option String := p.legacy.reverse.findSome? segmentOverride?

end Prefixes

end CodeSignature
