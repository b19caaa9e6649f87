/-! # UTF-8

Decoding of bytes as UTF-8 that leaves out whatever is no part of a well-formed character.
-/

namespace CodeSignature.Utf8

def continuation? (b : UInt8) : Option Nat :=
  if 0x80 ≤ b.toNat ∧ b.toNat < 0xC0 then some (b.toNat - 0x80) else none

def extend : Nat → Nat → List UInt8 → Option Nat
  | n, 0, _ => some n
  | _, _ + 1, [] => none
  | n, count + 1, b :: rest => do
    let bits ← continuation? b
    extend (64 * n + bits) count rest

/-- A code point if it is a character and at least as large as its length in bytes demands. -/
def checked? (least n : Nat) : Option Char :=
  if least ≤ n ∧ n.isValidChar then some (Char.ofNat n) else none

/-- The character that starts with a byte, and the number of bytes it takes after the first. -/
def character? (b : UInt8) (rest : List UInt8) : Option (Char × Nat) :=
  let n := b.toNat
  if n < 0x80 then some (Char.ofNat n, 0)
  else if n < 0xC0 then none
  else if n < 0xE0 then
    ((extend (n - 0xC0) 1 rest).bind (checked? 0x80)).map (·, 1)
  else if n < 0xF0 then
    ((extend (n - 0xE0) 2 rest).bind (checked? 0x800)).map (·, 2)
  else if n < 0xF8 then
    ((extend (n - 0xF0) 3 rest).bind (checked? 0x10000)).map (·, 3)
  else none

def charsAfter : Nat → List UInt8 → List Char
  | _, [] => []
  | count + 1, _ :: rest => charsAfter count rest
  | 0, b :: rest =>
    match character? b rest with
    | some (c, count) => c :: charsAfter count rest
    | none => charsAfter 0 rest

/-- The well-formed characters of a buffer. -/
def chars (bytes : List UInt8) : List Char := charsAfter 0 bytes

example : chars [0x41, 0xC3, 0xA9, 0xFF, 0xE2, 0x82, 0x42] = ['A', 'é', 'B'] := by decide

end CodeSignature.Utf8
