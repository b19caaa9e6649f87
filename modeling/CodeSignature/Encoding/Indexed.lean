import CodeSignature.Encoding.Decode

/-! # Decoding by position

The decoder as it works on a whole block of code: bytes are read by index, fields as slices of a
fixed size, and names are looked up in tables by number. Each of these can fail, so every reader
tests beforehand whether the bytes are there. An instruction that is cut short is unknown, which is
no failure.
-/

namespace CodeSignature

/-- What a reading by position can lack. -/
inductive Missing where
  | byte (position : Nat)
  | field (position size : Nat)
  | format (size : Nat)
  | register (number : Nat) (width : Width)
  /-- The number of an operation is outside of the table of their names. -/
  | operation
deriving DecidableEq, Repr

namespace Register

def names (width : Width) (extended : Bool) : List String :=
  match width with
  | .qword => qwordNames
  | .dword => dwordNames
  | .word => wordNames
  | .byte => if extended then extendedByteNames else legacyByteNames

theorem name_eq_getD (number : Nat) (width : Width) (extended : Bool) :
    name number width extended = (names width extended).getD number "" := by
  cases width <;> rfl

end Register

def Place.fieldSize : Place → Nat
  | .register _ => 0
  | .memory a => a.fieldSize

namespace Indexed

def byte (bytes : List UInt8) (position : Nat) : Except Missing UInt8 :=
  match bytes[position]? with
  | some b => .ok b
  | none => .error (.byte position)

def field (bytes : List UInt8) (position size : Nat) : Except Missing (List UInt8) :=
  let field := (bytes.drop position).take size
  if field.length = size then .ok field else .error (.field position size)

def field? (bytes : List UInt8) (position size : Nat) : Except Missing (Option (List UInt8)) := do
  if bytes.length < position + size then return none
  else
    let field ← field bytes position size
    return some field

def register (number : Nat) (width : Width) (extended : Bool) : Except Missing String :=
  match (Register.names width extended)[number]? with
  | some name => .ok name
  | none => .error (.register number width)

/-- Without a REX byte there are eight byte registers. -/
example : register 8 .byte false = .error (.register 8 .byte) ∧
    register 8 .byte true = .ok "r8b" :=
  ⟨rfl, rfl⟩

def legacyEnd (code : List UInt8) (position : Nat) : Except Missing Nat :=
  if position < code.length then do
    let b ← byte code position
    if isLegacyPrefix b then legacyEnd code (position + 1) else return position
  else return position
termination_by code.length - position

def prefixes (mode : Mode) (code : List UInt8) (offset : Nat) : Except Missing Prefixes := do
  let stop ← legacyEnd code offset
  let legacy := (code.take stop).drop offset
  if mode = .bits64 ∧ stop < code.length then
    let b ← byte code stop
    return ⟨legacy, if isRex b then some b else none⟩
  else return ⟨legacy, none⟩

def opcode (mode : Mode) (buffer : List UInt8) (position : Nat) :
    Except Missing (Option (Opcode × UInt8 × Nat)) := do
  let b ← byte buffer position
  if b = 0x0F then
    if position + 1 < buffer.length then
      let second ← byte buffer (position + 1)
      return (Opcode.twoByte? second).map (·, second, position + 2)
    else return none
  else return (Opcode.oneByte? mode b).map (·, b, position + 1)

/-- Looks a register up at every width: its name is made before it is known which operand needs
it. -/
def everyRegister (number : Nat) (extended : Bool) : Except Missing Unit := do
  let _ ← register number .byte extended
  let _ ← register number .word extended
  let _ ← register number .dword extended
  let _ ← register number .qword extended
  return ()

def index (mode : Mode) (p : Prefixes) (sib : Nat) : Except Missing (Option String) := do
  let number := p.extendIndex (sib / 8 % 8)
  if number = 4 then return none
  else
    let name ← register number (.native mode) p.rex.isSome
    let scale := 1 <<< (sib / 64)
    return some (if scale = 1 then name else name ++ "*" ++ toString scale)

def sibAddressing (mode : Mode) (p : Prefixes) (mod sib : Nat) : Except Missing Addressing := do
  if mod = 0 ∧ sib % 8 = 5 then
    let index ← index mode p sib
    return .absolute index
  else
    let base ← register (p.extendBase (sib % 8)) (.native mode) p.rex.isSome
    let index ← index mode p sib
    return .based base index (.ofMod mod)

def plainAddressing (mode : Mode) (p : Prefixes) (mod rm : Nat) : Except Missing Addressing := do
  if mod = 0 ∧ rm = 5 then
    match mode with
    | .bits64 => return .relative
    | .bits32 => return .absolute none
  else
    let base ← register (p.extendBase rm) (.native mode) p.rex.isSome
    return .based base none (.ofMod mod)

def modRM (mode : Mode) (p : Prefixes) (buffer : List UInt8) (position : Nat) :
    Except Missing (Option (ModRM × Nat)) := do
  if position < buffer.length then
    let b ← byte buffer position
    let mod := b.toNat / 64
    let reg := b.toNat / 8 % 8
    let rm := b.toNat % 8
    everyRegister (p.extendReg reg) p.rex.isSome
    if mod = 3 then
      everyRegister (p.extendBase rm) p.rex.isSome
      return some (⟨reg, .register (p.extendBase rm)⟩, position + 1)
    else if rm = 4 then
      if position + 1 < buffer.length then
        let sib ← byte buffer (position + 1)
        let addressing ← sibAddressing mode p mod sib.toNat
        return some (⟨reg, .memory addressing⟩, position + 2)
      else return none
    else
      let addressing ← plainAddressing mode p mod rm
      return some (⟨reg, .memory addressing⟩, position + 1)
  else return none

def slot (mode : Mode) (p : Prefixes) (opcode : UInt8) (m : ModRM) :
    OperandForm → Except Missing Slot
  | .place w =>
    match m.place with
    | .register number => return .register (← register number (w.resolve mode p) p.rex.isSome)
    | .memory a => return .memory (w.resolve mode p) p.segment? a
  | .reg w => return .register (← register (p.extendReg m.reg) (w.resolve mode p) p.rex.isSome)
  | .low w =>
    return .register
      (← register (p.extendBase (opcode.toNat % 8)) (w.resolve mode p) p.rex.isSome)
  | .accumulator w => return .register (← register 0 (w.resolve mode p) p.rex.isSome)
  | form => return form.slot mode p opcode m

def ofTemplate (mode : Mode) (p : Prefixes) (opcode : UInt8) (m : ModRM) (size : Nat)
    (t : Template) : Except Missing Head := do
  let slots ← t.operands.mapM (slot mode p opcode m)
  if t.mnemonic = "" then .error .operation
  else
    return { mnemonic := t.mnemonic
             slots := slots
             size := size
             displacementSize := Sequence.total (slots.map (·.displacementSize))
             immediateSize := t.immediateSize p }

/-- The sizes of an immediate field after a ModR/M byte; 0 stands for none. -/
def operandFormats : List Nat := [0, 1, 2, 4]

/-- The head and the displacement of an instruction whose ModR/M byte is at a position. The
displacement is read before it is known whether there is such an instruction. -/
def groupHead (mode : Mode) (p : Prefixes) (buffer : List UInt8) (last : UInt8) (position : Nat)
    (group : Nat → Option Template) : Except Missing (Option (Head × List UInt8)) := do
  match ← modRM mode p buffer position with
  | none => return none
  | some (m, stop) =>
    match ← field? buffer stop m.place.fieldSize with
    | none => return none
    | some displacement =>
      match group m.reg with
      | none => return none
      | some t =>
        if t.immediateSize p ∈ operandFormats then
          let h ← ofTemplate mode p last m stop t
          return some (h, displacement)
        else .error (.format (t.immediateSize p))

def head (mode : Mode) (p : Prefixes) (buffer : List UInt8) :
    Except Missing (Option (Head × List UInt8)) := do
  match ← opcode mode buffer p.size with
  | none => return none
  | some (.plain t, last, stop) =>
    let h ← ofTemplate mode p last ⟨0, .register 0⟩ stop t
    return some (h, [])
  | some (.modRM group, last, stop) => groupHead mode p buffer last stop group

def complete (address : Int) (buffer : List UInt8) (h : Head) (displacement : List UInt8) :
    Except Missing (Option Instruction) := do
  match ← field? buffer (h.size + displacement.length) h.immediateSize with
  | none => return none
  | some immediate =>
    let front ← field buffer 0 h.size
    return some (h.instruction address (front ++ displacement ++ immediate))

def instruction (mode : Mode) (address : Int) (p : Prefixes) (buffer : List UInt8) :
    Except Missing (Option Instruction) := do
  match ← head mode p buffer with
  | none => return none
  | some (h, displacement) => complete address buffer h displacement

def unknown (address : Int) (code : List UInt8) (offset size : Nat) : Instruction :=
  { Encoding.unknown address ((code.drop offset).take size) with size := size }

def window : Nat := Encoding.maxOpcodeSize.toNat

def entry (mode : Mode) (base : Int) (code : List UInt8) (offset : Nat) :
    Except Missing Instruction := do
  let address := base + offset
  let p ← prefixes mode code offset
  if code.length ≤ offset + p.size then
    if code.length - offset = 0 then return Encoding.endOfCode address
    else return unknown address code offset (code.length - offset)
  else
    let buffer := (code.drop offset).take (p.size + window)
    match ← instruction mode address p buffer with
    | some i => return i
    | none =>
      let b ← byte buffer p.size
      let size := if b = 0x0F ∧ p.size + 1 < buffer.length then p.size + 2 else p.size + 1
      return unknown address code offset (min size (code.length - offset))

/-- The known instruction at an address: the entry there, unless it is an empty one or one of unknown
bytes, which its mnemonic tells. -/
def decodeAt? (mode : Mode) (base : Int) (code : List UInt8) (address : Int) :
    Except Missing (Option Instruction) := do
  let offset := address - base
  if offset < 0 ∨ code.length ≤ offset then return none
  else
    let i ← entry mode base code offset.toNat
    return if i.mnemonic = "db" ∨ i.size = 0 then none else some i

/-- The entries from an offset to the end. An empty entry would end them as well. -/
def sweepFrom (mode : Mode) (base : Int) (code : List UInt8) (offset : Nat) :
    Except Missing (List Instruction) :=
  if offset < code.length then do
    let entry ← entry mode base code offset
    if 0 < entry.size then
      let entries ← sweepFrom mode base code (offset + entry.size.toNat)
      return entry :: entries
    else return []
  else return []
termination_by code.length - offset

def sweep (mode : Mode) (base : Int) (code : List UInt8) : Except Missing (List Instruction) :=
  sweepFrom mode base code 0

end Indexed

end CodeSignature
