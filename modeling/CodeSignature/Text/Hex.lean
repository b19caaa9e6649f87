/-! # Hexadecimal text

Digits of bytes and of integers. A negative number is written as a minus sign followed by the
digits of its magnitude; the sign counts towards a minimum width.
-/

namespace CodeSignature.Hex

def lowerDigit (n : Nat) : Char :=
  if n < 10 then Char.ofNat (48 + n) else Char.ofNat (87 + n)

def upperDigit (n : Nat) : Char :=
  if n < 10 then Char.ofNat (48 + n) else Char.ofNat (55 + n)

/-- The value of an ASCII hexadecimal digit of either case. -/
def digit? (c : Char) : Option Nat :=
  if '0' ≤ c ∧ c ≤ '9' then some (c.toNat - 48)
  else if 'a' ≤ c ∧ c ≤ 'f' then some (c.toNat - 87)
  else if 'A' ≤ c ∧ c ≤ 'F' then some (c.toNat - 55)
  else none

def byte? (high low : Char) : Option UInt8 := do
  let h ← digit? high
  let l ← digit? low
  return UInt8.ofNat (16 * h + l)

def lowerByte (b : UInt8) : List Char := [lowerDigit (b.toNat / 16), lowerDigit (b.toNat % 16)]

def upperByte (b : UInt8) : List Char := [upperDigit (b.toNat / 16), upperDigit (b.toNat % 16)]

/-- Lower-case digits without leading zeros. -/
def ofNat (n : Nat) : String := String.ofList (Nat.toDigits 16 n)

def withSign (value : Int) (digits : String) : String :=
  if value < 0 then "-" ++ digits else digits

/-- Lower-case digits after the sign, without a base mark. -/
def ofInt (value : Int) : String := withSign value (ofNat value.natAbs)

def upperOfInt (value : Int) : String :=
  withSign value (String.ofList ((Nat.toDigits 16 value.natAbs).map Char.toUpper))

/-- The base mark stands between the sign and the digits: `-0x5`. -/
def signedLiteral (value : Int) : String := withSign value ("0x" ++ ofNat value.natAbs)

/-- Zeros between the sign and the digits fill the text up to the given width. -/
def padded (width : Nat) (value : Int) : String :=
  let digits := Nat.toDigits 16 value.natAbs
  let room := if value < 0 then width - 1 else width
  withSign value (String.ofList (List.replicate (room - digits.length) '0' ++ digits))

def ofBytes (bytes : List UInt8) : String := String.ofList (bytes.flatMap lowerByte)

/-- Reads pairs of digits; an odd count or a foreign character is refused. -/
def readBytes? : List Char → Option (List UInt8)
  | [] => some []
  | [_] => none
  | high :: low :: rest => do
    let b ← byte? high low
    let bytes ← readBytes? rest
    return b :: bytes

example : padded 8 (-1) = "-0000001" ∧ padded 8 0x401000 = "00401000" := by decide +kernel

example : signedLiteral (-5) = "-0x5" ∧ ofInt (-5) = "-5" ∧ upperOfInt 0xAB = "AB" := by
  decide +kernel

end CodeSignature.Hex
