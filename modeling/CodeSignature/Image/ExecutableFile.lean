import CodeSignature.Bytes
import CodeSignature.Image.Executable

/-! # Reading executable files

The headers of a portable executable: two marks, the fields that loading uses, and the table of
sections. Fields are little-endian numbers at fixed offsets.
-/

namespace CodeSignature.Executable

/-- The field at an offset, if the file holds all its bytes. -/
def field? (file : List UInt8) (offset width : Nat) : Option Nat :=
  let bytes := (file.drop offset).take width
  if bytes.length = width then some (Bytes.unsigned bytes) else none

def slice (file : List UInt8) (offset count : Nat) : List UInt8 := (file.drop offset).take count

def sectionHeaderSize : Nat := 40

def sectionAt? (file : List UInt8) (offset : Nat) : Option Section := do
  let memorySize ← field? file (offset + 8) 4
  let address ← field? file (offset + 12) 4
  let size ← field? file (offset + 16) 4
  let start ← field? file (offset + 20) 4
  let characteristics ← field? file (offset + 36) 4
  return {
    name := slice file offset 8
    address := address
    data := slice file start size
    memorySize := memorySize
    characteristics := characteristics }

def sectionsFrom? (file : List UInt8) : Nat → Nat → Option (List Section)
  | 0, _ => some []
  | count + 1, offset => do
    let s ← sectionAt? file offset
    let rest ← sectionsFrom? file count (offset + sectionHeaderSize)
    return s :: rest

/-- The headers after the second mark, which lies at an offset. -/
def headersAt? (file : List UInt8) (offset : Nat) : Option Executable := do
  let machine ← field? file (offset + 4) 2
  let count ← field? file (offset + 6) 2
  let optionalSize ← field? file (offset + 20) 2
  let optional := offset + 24
  let magic ← field? file optional 2
  let entry ← field? file (optional + 16) 4
  let imageBase ←
    if magic = wideMagic then field? file (optional + 24) 8 else field? file (optional + 28) 4
  let sections ← sectionsFrom? file count (optional + optionalSize)
  return { machine, magic, imageBase, entry, sections }

def read (file : List UInt8) : Except String Executable :=
  if slice file 0 2 ≠ [0x4D, 0x5A] then .error "DOS Header magic not found."
  else
    match field? file 0x3C 4 with
    | none => .error "NT Headers not found."
    | some offset =>
      if slice file offset 4 ≠ [0x50, 0x45, 0, 0] then .error "NT Headers not found."
      else
        match headersAt? file offset with
        | some e => .ok e
        | none => .error "Headers are cut off."

end CodeSignature.Executable
