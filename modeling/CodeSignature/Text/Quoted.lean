import CodeSignature.Text.Hex
import CodeSignature.Text.Printable
import CodeSignature.Text.WideString

/-! # Quoted text

Text as messages show it. Apostrophes enclose it, or quotation marks if it holds an apostrophe and
no quotation mark. Backslash, the enclosing mark, unprintable characters and surrogates are escaped.
-/

namespace CodeSignature.Quoted

/-- Lower-case digits, as many as asked for. -/
def fixedDigits (count n : Nat) : List Char :=
  let digits := Nat.toDigits 16 n
  List.replicate (count - digits.length) '0' ++ digits

def encodeChar (mark c : Char) : List Char :=
  if c = mark ∨ c = '\\' then ['\\', c]
  else if c = '\n' then ['\\', 'n']
  else if c = '\r' then ['\\', 'r']
  else if c = '\t' then ['\\', 't']
  else if isPrintable c then [c]
  else if c.toNat < 0x100 then ['\\', 'x'] ++ fixedDigits 2 c.toNat
  else if c.toNat < 0x10000 then ['\\', 'u'] ++ fixedDigits 4 c.toNat
  else ['\\', 'U'] ++ fixedDigits 8 c.toNat

def encodePoint (mark : Char) : CodePoint → List Char
  | .char c => encodeChar mark c
  | .surrogate index => ['\\', 'u'] ++ fixedDigits 4 (CodePoint.surrogate index).value

def markFor (points : List CodePoint) : Char :=
  if points.contains (.char '\x27') && !points.contains (.char '\x22') then '\x22' else '\x27'

def encode (text : WideString) : String :=
  let mark := markFor text.points
  String.ofList (mark :: (text.points.flatMap (encodePoint mark) ++ [mark]))

end CodeSignature.Quoted
