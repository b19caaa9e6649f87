/-! # Fields of machine words

A field is a list of bytes, least significant byte first. It is read as a natural number or, in
two's complement, as an integer.
-/

namespace CodeSignature.Bytes

/-- The number whose base-256 digits are the given bytes, least significant first. -/
def unsigned : List UInt8 → Nat
  | [] => 0
  | b :: rest => b.toNat + 256 * unsigned rest

/-- The two's complement reading of a field as wide as the list. -/
def signed (bytes : List UInt8) : Int :=
  Int.bmod (unsigned bytes) (1 <<< (8 * bytes.length))

/-- A position in a block of bytes; a negative one counts from the end. -/
def position (bytes : List UInt8) (place : Int) : Nat :=
  if place < 0 then (bytes.length + place).toNat else place.toNat

def between (bytes : List UInt8) (start stop : Int) : List UInt8 :=
  (bytes.take (position bytes stop)).drop (position bytes start)

example : signed [0xff] = -1 ∧ signed [0x80, 0x00] = 128 ∧ signed [0x00, 0x80] = -32768 := by
  decide

end CodeSignature.Bytes
