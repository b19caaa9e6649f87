import CodeSignature.Text.Blank
import CodeSignature.Text.DecimalDigit
import CodeSignature.Text.Hex

/-! # Numerals

Integers as people type them: blanks around, a sign, a base mark for base sixteen, digits of any
script with single underscores between them.
-/

namespace CodeSignature

namespace Numeral

/-- The blanks allowed around a numeral: all but the information separators. -/
def isMargin (c : Char) : Bool := isBlank c && !(28 ≤ c.toNat && c.toNat ≤ 31)

def digit? (base : Nat) (c : Char) : Option Nat :=
  match DecimalDigit.value? c with
  | some d => if d < base then some d else none
  | none => if base = 16 then Hex.digit? c else none

/-- Reads digits after the number so far. An underscore has a digit on each side; `separated` tells
whether one has just been read. -/
def digits (base : Nat) (separated : Bool) (value : Nat) : List Char → Option Nat
  | [] => if separated then none else some value
  | c :: rest =>
    if c = '_' then (if separated then none else digits base true value rest)
    else do
      let d ← digit? base c
      digits base false (base * value + d) rest

def magnitude (base : Nat) : List Char → Option Nat
  | [] => none
  | c :: rest => do
    let d ← digit? base c
    digits base false d rest

/-- Removes the mark of base sixteen, and one underscore after it. -/
def dropMark (base : Nat) : List Char → List Char
  | lead :: x :: rest =>
    if base = 16 ∧ DecimalDigit.value? lead = some 0 ∧ (x = 'x' ∨ x = 'X') then
      match rest with
      | '_' :: rest => rest
      | rest => rest
    else lead :: x :: rest
  | cs => cs

def splitSign : List Char → Bool × List Char
  | '-' :: rest => (true, rest)
  | '+' :: rest => (false, rest)
  | cs => (false, cs)

def maxDecimalDigits : Nat := 4300

def read? (base : Nat) (text : String) : Option Int := do
  let (negative, cs) := splitSign (Sequence.dropEndWhile isMargin (text.toList.dropWhile isMargin))
  let n ← magnitude base (dropMark base cs)
  if base = 10 ∧ maxDecimalDigits < (cs.filter (· ≠ '_')).length then none
  else return (if negative then -(n : Int) else n)

end Numeral

end CodeSignature
