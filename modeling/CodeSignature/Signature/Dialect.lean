import CodeSignature.Failure
import CodeSignature.Text.Hex
import CodeSignature.Text.Quoted

/-! # Written signatures

Four ways to write a signature: as words with `?` or `??` for a wildcard, as escaped bytes with a
mask, and as numbers with a bit mask. The first two lose the values under wildcards.
-/

namespace CodeSignature

inductive Dialect where
  /-- Words, with `?` for a wildcard. -/
  | ida
  /-- Words, with `??` for a wildcard. -/
  | x64dbg
  /-- Escaped bytes and a mask of `x` and `?`. -/
  | mask
  /-- Numbers and a mask of bits, the lowest bit for the first byte. -/
  | bitmask
deriving DecidableEq, Repr

namespace Dialect

def all : List Dialect := [.ida, .x64dbg, .mask, .bitmask]

def name : Dialect → String
  | .ida => "ida"
  | .x64dbg => "x64dbg"
  | .mask => "mask"
  | .bitmask => "bitmask"

def ofName? (name : String) : Option Dialect := all.find? (·.name = name)

/-- The dialect of a name; another text is shown in the fault. -/
def named (name : WideString) : Except Fault Dialect :=
  match name.toString?.bind ofName? with
  | some d => .ok d
  | none => .error (.unknownDialect (Quoted.encode name))

def words (wildcard : List Char) (s : Signature) : List Char :=
  [' '].intercalate (s.map fun c => if c.wildcard then wildcard else Hex.upperByte c.value)

def escapedByte (b : UInt8) : List Char := '\\' :: 'x' :: Hex.upperByte b

def numberByte (b : UInt8) : List Char := '0' :: 'x' :: Hex.upperByte b

def escapes (s : Signature) : List Char :=
  if s = [] then [] else s.values.flatMap escapedByte ++ ' ' :: s.maskChars

/-- Numbers with commas, a blank, and the bits from the last byte to the first. -/
def numbers (s : Signature) : List Char :=
  if s = [] then []
  else
    [',', ' '].intercalate (s.values.map numberByte) ++ ' ' :: '0' :: 'b' ::
      (s.map fun c => if c.wildcard then '0' else '1').reverse

def renderChars : Dialect → Signature → List Char
  | .ida => words ['?']
  | .x64dbg => words ['?', '?']
  | .mask => escapes
  | .bitmask => numbers

def render (d : Dialect) (s : Signature) : String := String.ofList (d.renderChars s)

end Dialect

end CodeSignature
