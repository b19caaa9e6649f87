import CodeSignature.Decoder
import CodeSignature.Dialogue.Basic
import CodeSignature.Image.Occurrences
import CodeSignature.Instruction.Masking
import CodeSignature.Listing.Reference
import CodeSignature.Listing.Routine

/-! # Analysed images

What is known about an image before a search: its functions, the references in its code, how its
instructions are decoded and which of their bytes are masked.
-/

namespace CodeSignature

structure Analysis where
  image : Image
  decoder : Decoder
  routines : RoutineMap
  references : References
  masking : Masking

namespace Analysis

/-- The decoder of an image. There is none for ARM code. -/
def decoderFor (image : Image) : Except Fault Decoder :=
  if Masking.isArm image.processor then .error (.noDecoder image.processor)
  else .ok (.ofImage image (Decoder.modeOf image))

/-- The analysis of an image under a given decoder. References lead to the range of the image. -/
def ofDecoder (image : Image) (decoder : Decoder) (h : Heuristics) : Analysis where
  image := image
  decoder := decoder
  routines := .ofList (Listing.routines decoder.listing image.entryPoint [] h)
  references :=
    .ofPairs (Listing.references (some (image.lowest, image.highest)) decoder.listing)
  masking := .forProcessor image.processor

def announce (a : Analysis) (d : Dialogue) : Dialogue :=
  let decoded := "Linear sweep decoded " ++ toString a.decoder.listing.length ++ " instructions"
  let found := "Found " ++ toString a.routines.routines.length ++ " functions"
  (d.write .debug decoded).write .debug found

def ofImage (image : Image) (h : Heuristics) : Except Fault Analysis :=
  (decoderFor image).map fun decoder => ofDecoder image decoder h

def bytes (a : Analysis) (wildcard : Bool) (address count : Int) : Signature :=
  .ofBytes wildcard (a.image.read address count)

/-- The cells of an instruction. With wildcards on, the masked range is all wildcards. Bytes after it
only count if it starts with the instruction. -/
def cells (a : Analysis) (wildcards : Bool) (i : Instruction) : Signature :=
  match if wildcards then a.masking.range? i else none with
  | some (offset, length) =>
    if 0 < length then
      a.bytes false i.address offset ++ a.bytes true (i.address + offset) length ++
        (if offset = 0 then a.bytes false (i.address + length) (i.size - length) else [])
    else a.bytes false i.address i.size
  | none => a.bytes false i.address i.size

def cellsAt (a : Analysis) (wildcards : Bool) (address : Int) : Except Fault Signature :=
  match a.decoder.decode? address with
  | some i => .ok (a.cells wildcards i)
  | none => .error .noInstruction

def cellsOf (a : Analysis) (wildcards : Bool) (is : List Instruction) : Signature :=
  is.flatMap (a.cells wildcards)

/-- A bound on the number of instructions in a search. Each poll, each reply and each byte of the
image can end a search that comes back to an address it has been to. -/
def patience (a : Analysis) (d : Dialogue) : Nat :=
  a.decoder.reach *
    (2 + d.polls.length + d.replies.length +
      Sequence.total (a.image.segments.map (·.data.length)))

def writeEnd (address : Int) (d : Dialogue) : Dialogue :=
  d.write .info ("Signature reached end of executable code @ " ++ Hex.upperOfInt address)

end Analysis

end CodeSignature
