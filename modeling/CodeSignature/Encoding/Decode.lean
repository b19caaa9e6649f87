import CodeSignature.Encoding.Opcode
import CodeSignature.Failure
import CodeSignature.Sequence

/-! # Decoding

The head of an instruction, which is everything before its fields, determines its mnemonic, its
operands and its size. The displacement and the immediate follow it and are filled in afterwards.
Bytes that begin no known instruction make a `db` entry.
-/

namespace CodeSignature

/-- What the bytes before the fields determine. -/
structure Head where
  mnemonic : String
  slots : List Slot
  /-- The number of prefix, opcode, ModR/M and SIB bytes. -/
  size : Nat
  displacementSize : Nat
  immediateSize : Nat
deriving DecidableEq, Repr

namespace Head

def ofTemplate (mode : Mode) (p : Prefixes) (opcode : UInt8) (m : ModRM) (size : Nat)
    (t : Template) : Head :=
  let slots := t.operands.map (·.slot mode p opcode m)
  { mnemonic := t.mnemonic
    slots := slots
    size := size
    displacementSize := Sequence.total (slots.map (·.displacementSize))
    immediateSize := t.immediateSize p }

/-- Reads the head of an instruction. An opcode without a ModR/M byte refers to none, so any will
do for it. -/
def read (mode : Mode) (bytes : List UInt8) : Option Head := do
  let (p, rest) := Prefixes.read mode bytes
  let (meaning, opcode, rest) ← Opcode.read mode rest
  match meaning with
  | .plain t =>
    return ofTemplate mode p opcode ⟨0, .register 0⟩ (bytes.length - rest.length) t
  | .modRM group =>
    let (m, rest) ← ModRM.read mode p rest
    let t ← group m.reg
    return ofTemplate mode p opcode m (bytes.length - rest.length) t

def total (h : Head) : Nat := h.size + h.displacementSize + h.immediateSize

def displacement (h : Head) (bytes : List UInt8) : List UInt8 :=
  (bytes.drop h.size).take h.displacementSize

def immediate (h : Head) (bytes : List UInt8) : List UInt8 :=
  (bytes.drop (h.size + h.displacementSize)).take h.immediateSize

def next (h : Head) (address : Int) : Int := address + h.total

def immediateOffset (h : Head) : Nat := h.size + h.displacementSize

/-- The offset of the displacement field of a memory operand, 0 if it has none. -/
def displacementOffset (h : Head) (a : Addressing) : Nat :=
  if a.fieldSize = 0 then 0 else h.size

def slotText (h : Head) (address : Int) (bytes : List UInt8) : Slot → String
  | .register name => name
  | .memory width segment a =>
    width.name ++ " ptr [" ++ (segment.map (· ++ ":")).getD "" ++
      a.text (h.displacement bytes) (h.next address) ++ "]"
  | .signed => Hex.signedLiteral (Bytes.signed (h.immediate bytes))
  | .unsigned => Hex.signedLiteral (Bytes.unsigned (h.immediate bytes))
  | .branch => "0x" ++ Hex.ofInt (h.next address + Bytes.signed (h.immediate bytes))
  | .one => "1"
  | .trap => "3"

/-- The operand of a slot. A trap number is no operand. -/
def slotOperand? (h : Head) (address : Int) (bytes : List UInt8) : Slot → Option Operand
  | .register _ => some ⟨.register, 0, none⟩
  | .memory _ _ a =>
    some ⟨a.kind, h.displacementOffset a, a.value? (h.displacement bytes) (h.next address)⟩
  | .signed => some ⟨.immediate, h.immediateOffset, some (Bytes.unsigned (h.immediate bytes))⟩
  | .unsigned => some ⟨.immediate, h.immediateOffset, some (Bytes.unsigned (h.immediate bytes))⟩
  | .branch =>
    some ⟨.near, h.immediateOffset, some (h.next address + Bytes.signed (h.immediate bytes))⟩
  | .one => some ⟨.immediate, 0, some 1⟩
  | .trap => none

def instruction (h : Head) (address : Int) (bytes : List UInt8) : Instruction :=
  { address := address
    size := h.total
    mnemonic := h.mnemonic
    operandText := String.intercalate ", " (h.slots.map (h.slotText address bytes))
    bytes := bytes
    atEnd := false
    operands := h.slots.filterMap (h.slotOperand? address bytes) }

end Head

namespace Encoding

/-- The instruction at the front of a buffer, if it is known and complete. -/
def decode? (mode : Mode) (address : Int) (bytes : List UInt8) : Option Instruction := do
  let h ← Head.read mode bytes
  let own := bytes.take h.total
  if own.length = h.total then some (h.instruction address own) else none

/-- The number of bytes after the prefixes that an instruction may have. -/
def maxOpcodeSize : Int := 15

/-- The number of bytes that count as one unknown entry: the prefixes and the opcode, or everything
if nothing follows the prefixes. -/
def unknownSize (mode : Mode) (bytes : List UInt8) : Nat :=
  let (p, rest) := Prefixes.read mode bytes
  match rest with
  | [] => bytes.length
  | [_] => p.size + 1
  | b :: _ :: _ => if b = 0x0F then p.size + 2 else p.size + 1

def unknown (address : Int) (bytes : List UInt8) : Instruction :=
  { address := address
    size := bytes.length
    mnemonic := "db"
    operandText :=
      String.intercalate ", " (bytes.map fun b => "0x" ++ String.ofList (Hex.lowerByte b))
    bytes := bytes
    atEnd := false
    operands := [] }

def endOfCode (address : Int) : Instruction :=
  { address := address
    size := 0
    mnemonic := "db"
    operandText := "EOF"
    bytes := []
    atEnd := true
    operands := [] }

/-- The entry at the front of a buffer: an instruction, unknown bytes, or the end. -/
def decodeOne (mode : Mode) (address : Int) (bytes : List UInt8) : Instruction :=
  if bytes = [] then endOfCode address
  else (decode? mode address bytes).getD
    (unknown address (bytes.take (unknownSize mode bytes)))

/-- The entry at an offset in front of a block of code, which counts from the end. The prefixes are
read from there on and, after the last byte, from the first one; everything else lies between two
positions, each of which may count from the end. There has to be an opcode. -/
def entryFromEnd (mode : Mode) (base : Int) (code : List UInt8) (offset : Int) :
    Except Fault Instruction :=
  let address := base + offset
  let bytes (size : Int) := Bytes.between code offset (offset + size)
  let ring := code.drop (code.length + offset).toNat ++ code
  let (p, rest) := Prefixes.read mode ring
  let opcode := offset + p.size
  if offset < -code.length then .error .outsideCode
  else if rest = [] then
    let size := code.length - offset
    .ok { unknown address (bytes size) with size := size }
  else
    match Bytes.between code opcode (opcode + maxOpcodeSize) with
    | [] => .error .outsideCode
    | window =>
      let buffer := ring.take p.size ++ window
      match decode? mode address buffer with
      | some i => .ok { i with bytes := bytes i.size }
      | none =>
        let size := unknownSize mode buffer
        .ok { unknown address (bytes size) with size := size }

/-- The entry at an offset of a block of code. Past the end it is empty, and its size leads back to
the end. -/
def entryAt (mode : Mode) (base : Int) (code : List UInt8) (offset : Int) :
    Except Fault Instruction :=
  if offset < 0 then entryFromEnd mode base code offset
  else if code.length < offset then
    .ok { unknown (base + offset) [] with size := code.length - offset }
  else .ok (decodeOne mode (base + offset) (code.drop offset.toNat))

/-- Consecutive entries from the front of a buffer to its end. -/
def sweep (mode : Mode) (address : Int) (bytes : List UInt8) : List Instruction :=
  match bytes with
  | [] => []
  | b :: rest =>
    let entry := decodeOne mode address (b :: rest)
    entry :: sweep mode entry.next (rest.drop (entry.bytes.length - 1))
termination_by bytes.length
decreasing_by rw [List.length_drop, List.length_cons]; omega

def decodeAt? (mode : Mode) (base : Int) (code : List UInt8) (address : Int) :
    Option Instruction :=
  if base ≤ address ∧ address < base + code.length then
    decode? mode address (code.drop (address - base).toNat)
  else none

end Encoding

end CodeSignature
