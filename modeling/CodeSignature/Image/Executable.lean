import CodeSignature.Image.Basic
import CodeSignature.Text.Hex
import CodeSignature.Text.Utf8

/-! # Executable files

The fields of a portable executable that loading uses. Each section is mapped at its address
relative to the image base, cut or padded with zeros to its size in memory.
-/

namespace CodeSignature

namespace Executable

structure Section where
  name : List UInt8
  address : Int
  data : List UInt8
  memorySize : Nat
  characteristics : Nat

end Executable

structure Executable where
  machine : Nat
  magic : Nat
  imageBase : Int
  entry : Int
  sections : List Executable.Section

namespace Executable

def machineNames : List (Nat × String) :=
  [(0, "UNKNOWN"), (0x14c, "I386"), (0x166, "R4000"), (0x1c0, "ARM"), (0x1c2, "THUMB"),
    (0x1c4, "ARMNT"), (0x200, "IA64"), (0xebc, "EBC"), (0x5032, "RISCV32"),
    (0x6264, "LOONGARCH64"), (0x8664, "AMD64"), (0xaa64, "ARM64"), (0xc0ee, "CEE")]

def decodableMachines : List Nat := [0x14c, 0x8664]

def armMachines : List Nat := [0x1c0, 0x1c2, 0x1c4, 0xaa64]

def wideMagic : Nat := 0x20B

/-- The name of the machine; an unknown one is shown by its number. -/
def machineName (e : Executable) : String :=
  match machineNames.find? (·.1 = e.machine) with
  | some (_, name) => "IMAGE_FILE_MACHINE_" ++ name
  | none => "0x" ++ Hex.ofNat e.machine

def isDecodable (e : Executable) : Bool := decodableMachines.contains e.machine

namespace Section

/-- The size in memory; if none is given it is the size of the data. -/
def size (s : Section) : Nat := if s.memorySize = 0 then s.data.length else s.memorySize

/-- The bytes in memory: the data, cut or padded with zeros. -/
def content (s : Section) : List UInt8 :=
  s.data.take s.size ++ List.replicate (s.size - s.data.length) 0

/-- Execution is allowed, or the section holds code. -/
def isExecutable (s : Section) : Bool :=
  s.characteristics.testBit 29 || s.characteristics.testBit 5

/-- The characters of the name without zeros at the ends. -/
def label (s : Section) : String :=
  String.ofList
    (Sequence.dropEndWhile (· = '\x00') ((Utf8.chars s.name).dropWhile (· = '\x00')))

def segment (imageBase : Int) (s : Section) : Segment :=
  ⟨s.label, imageBase + s.address, s.content, s.isExecutable⟩

end Section

/-- The image of an executable. Sections without a size are left out. -/
def image (e : Executable) : Image :=
  Image.ofSegments ((e.sections.filter (·.size ≠ 0)).map (·.segment e.imageBase))
    (if armMachines.contains e.machine then "ARM" else "metapc")
    (if e.magic = wideMagic then 64 else 32)
    (some (e.imageBase + e.entry))

end Executable

end CodeSignature
