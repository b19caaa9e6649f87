import CodeSignature.Sequence

/-! # Signatures

A signature is a sequence of cells, each a byte value that counts or that may be anything. The
value under a wildcard is kept, so that it can be written as a literal again.
-/

namespace CodeSignature

structure Cell where
  value : UInt8
  wildcard : Bool
deriving DecidableEq, Repr

/-- What is compared with memory: a byte, or nothing for a wildcard. -/
abbrev Pattern := List (Option UInt8)

abbrev Signature := List Cell

namespace Signature

def ofBytes (wildcard : Bool) (bytes : List UInt8) : Signature := bytes.map (⟨·, wildcard⟩)

def trim (s : Signature) : Signature := Sequence.dropEndWhile (·.wildcard) s

/-- One character for each cell: `x` for a literal, `?` for a wildcard. -/
def maskChars (s : Signature) : List Char := s.map fun c => if c.wildcard then '?' else 'x'

def mask (s : Signature) : String := String.ofList s.maskChars

/-- The byte values without regard to wildcards. -/
def values (s : Signature) : List UInt8 := s.map (·.value)

def pattern (s : Signature) : Pattern := s.map fun c => if c.wildcard then none else some c.value

end Signature

end CodeSignature
