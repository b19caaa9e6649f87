import CodeSignature.Json.Basic

/-! # Writing JSON

The written form is ASCII alone. Every item and field stands on a line of its own, four columns
deeper than what encloses it.
-/

namespace CodeSignature.Json

def unitEscape (n : Nat) : List Char := ['\\', 'u'] ++ Quoted.fixedDigits 4 n

/-- One code point inside quotation marks. Characters outside the basic plane take two units. -/
def escapePoint : CodePoint → List Char
  | .surrogate index => unitEscape (CodePoint.surrogate index).value
  | .char c =>
    if c = '\x22' then ['\\', '\x22']
    else if c = '\\' then ['\\', '\\']
    else if c = '\n' then ['\\', 'n']
    else if c = '\r' then ['\\', 'r']
    else if c = '\t' then ['\\', 't']
    else if c = '\x08' then ['\\', 'b']
    else if c = '\x0c' then ['\\', 'f']
    else if 0x20 ≤ c.toNat ∧ c.toNat < 0x7F then [c]
    else if c.toNat < 0x10000 then unitEscape c.toNat
    else
      let n := c.toNat - 0x10000
      unitEscape (0xD800 + n / 0x400) ++ unitEscape (0xDC00 + n % 0x400)

def quote (text : WideString) (rest : List Char) : List Char :=
  '\x22' :: (text.points.flatMap escapePoint ++ '\x22' :: rest)

def lineBreak (depth : Nat) (rest : List Char) : List Char :=
  '\n' :: (List.replicate (4 * depth) ' ' ++ rest)

mutual

/-- The written form of a value at a depth, in front of what follows. -/
def write (depth : Nat) : Json → List Char → List Char
  | .null, rest => "null".toList ++ rest
  | .bool b, rest => (if b then "true" else "false").toList ++ rest
  | .integer n, rest => (toString n).toList ++ rest
  | .real x, rest => (x.text "NaN" "Infinity").toList ++ rest
  | .text s, rest => quote s rest
  | .array [], rest => '[' :: ']' :: rest
  | .array items, rest => '[' :: writeItems (depth + 1) items (lineBreak depth (']' :: rest))
  | .object [], rest => '\x7b' :: '\x7d' :: rest
  | .object fields, rest =>
    '\x7b' :: writeFields (depth + 1) fields (lineBreak depth ('\x7d' :: rest))

def writeItems (depth : Nat) : List Json → List Char → List Char
  | [], rest => rest
  | [item], rest => lineBreak depth (item.write depth rest)
  | item :: items, rest => lineBreak depth (item.write depth (',' :: writeItems depth items rest))

def writeFields (depth : Nat) : List (WideString × Json) → List Char → List Char
  | [], rest => rest
  | [(key, value)], rest => lineBreak depth (quote key (':' :: ' ' :: value.write depth rest))
  | (key, value) :: fields, rest =>
    lineBreak depth
      (quote key (':' :: ' ' :: value.write depth (',' :: writeFields depth fields rest)))

end

def toText (value : Json) : String := String.ofList (value.write 0 [])

end CodeSignature.Json
