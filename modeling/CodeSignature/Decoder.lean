import CodeSignature.Encoding.Decode
import CodeSignature.Image.Basic

/-! # Decoders

A decoder tells the instruction at an address and lists the code in order. One is made from the
executable segments of an image, another from a table of instructions.
-/

namespace CodeSignature

structure Decoder where
  decode? : Int → Option Instruction
  listing : List Instruction
  /-- A bound on the number of addresses at which an instruction is known. -/
  reach : Nat

namespace Decoder

def modeOf (image : Image) : Mode := if image.bitness = 64 then .bits64 else .bits32

/-- Decodes in the first segment that contains the address; the listing sweeps the executable
segments. -/
def ofImage (image : Image) (mode : Mode) : Decoder where
  decode? address :=
    (image.segments.find? (·.contains address)).bind fun s =>
      Encoding.decodeAt? mode s.start s.data address
  listing :=
    (image.segments.filter (·.executable)).flatMap fun s => Encoding.sweep mode s.start s.data
  reach := Sequence.total (image.segments.map (·.data.length))

/-- Looks addresses up in a table, where a later entry replaces an earlier one. -/
def ofTable (table : List Instruction) : Decoder where
  decode? address := table.reverse.find? (·.address = address)
  listing := table
  reach := table.length

end Decoder

end CodeSignature
