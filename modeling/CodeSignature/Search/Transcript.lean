import CodeSignature.Search.Analysis

/-! # Transcribing a range

The signature of an address range, unique or not. Data is literal. Code is taken instruction by
instruction, the last of which may go past the end; after the last known instruction the rest of the
range is literal.
-/

namespace CodeSignature.Analysis

/-- The signature of code up to an end address, from cells taken so far and the address after them. At
most so many instructions are taken. -/
def transcribeFrom (a : Analysis) (wildcards : Bool) (stop : Int) :
    Nat → Int → Signature → Dialogue → Except Failure Signature × Dialogue
  | steps, address, cells, d =>
    match d.poll with
    | (true, d) => (.error .aborted, d)
    | (false, d) =>
      match steps, a.decoder.decode? address with
      | steps + 1, some i =>
        let cells := cells ++ a.cells wildcards i
        let address := address + i.size
        if stop ≤ address then (.ok (Signature.trim cells), d)
        else transcribeFrom a wildcards stop steps address cells d
      | _, _ =>
        if cells = [] then (.error .decodeFailed, d)
        else
          let rest := a.bytes false address (stop - address)
          (.ok (Signature.trim (cells ++ rest)), writeEnd address d)

def isRange (a : Analysis) (start stop : Int) : Bool :=
  start ≠ Image.badAddress && stop ≠ Image.badAddress && start < stop &&
    match a.image.segmentAt? start with
    | some s => stop ≤ s.stop
    | none => false

/-- The signature of the bytes from a start address up to an end address. -/
def transcribe (a : Analysis) (wildcards : Bool) (start stop : Int) (d : Dialogue) :
    Except Failure Signature × Dialogue :=
  if !a.isRange start stop then (.error .invalidAddress, d)
  else if !a.image.isCode start then (.ok (a.bytes false start (stop - start)), d)
  else a.transcribeFrom wildcards stop (a.patience d) start [] d

end CodeSignature.Analysis
