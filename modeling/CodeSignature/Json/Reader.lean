import CodeSignature.Json.Basic

/-! # Reading JSON

A text holds one value with blanks around it. Of equal keys in an object the last one counts.
Besides the numbers of the grammar, `NaN` and the infinities are read. Arrays and objects may be nested
to a certain depth.
-/

namespace CodeSignature.Json

inductive ReadFailure where
  | malformed
  | longInteger (digits : Nat)
  | tooDeep
deriving DecidableEq, Repr

def maxDigits : Nat := 4300

/-- The largest number of arrays and objects that enclose one another. -/
def maxDepth : Nat := 988

/-- The four blanks of the grammar. -/
def isGap (c : Char) : Bool := c = ' ' || c = '\t' || c = '\n' || c = '\r'

def skipGap (cs : List Char) : List Char := cs.dropWhile isGap

inductive TextState where
  | plain
  | escape
  /-- Inside an escaped unit, with the number of digits still to come and the value so far. -/
  | unit (missing value : Nat)

def escaped? (c : Char) : Option Nat :=
  if c = '\x22' ∨ c = '\\' ∨ c = '/' then some c.toNat
  else if c = 'b' then some 8
  else if c = 'f' then some 12
  else if c = 'n' then some 10
  else if c = 'r' then some 13
  else if c = 't' then some 9
  else none

def consUnit (n : Nat) : Option (List Nat × List Char) → Option (List Nat × List Char) :=
  Option.map fun (units, rest) => (n :: units, rest)

/-- The code points up to the closing quotation mark, and what follows it. -/
def readUnits : TextState → List Char → Option (List Nat × List Char)
  | _, [] => none
  | .plain, c :: rest =>
    if c = '\x22' then some ([], rest)
    else if c = '\\' then readUnits .escape rest
    else if c.toNat < 0x20 then none
    else consUnit c.toNat (readUnits .plain rest)
  | .escape, c :: rest =>
    if c = 'u' then readUnits (.unit 4 0) rest
    else
      match escaped? c with
      | some n => consUnit n (readUnits .plain rest)
      | none => none
  | .unit missing value, c :: rest =>
    match Hex.digit? c with
    | some d =>
      if missing ≤ 1 then consUnit (16 * value + d) (readUnits .plain rest)
      else readUnits (.unit (missing - 1) (16 * value + d)) rest
    | none => none

/-- Joins each high surrogate with the low one after it. Other surrogates stay on their own. -/
def joinUnits : List Nat → List CodePoint
  | [] => []
  | [n] => [.ofValue n]
  | high :: low :: rest =>
    if (0xD800 ≤ high ∧ high < 0xDC00) ∧ (0xDC00 ≤ low ∧ low < 0xE000) then
      .ofValue (0x10000 + (high - 0xD800) * 0x400 + (low - 0xDC00)) :: joinUnits rest
    else .ofValue high :: joinUnits (low :: rest)

def readText (cs : List Char) : Option (WideString × List Char) :=
  (readUnits .plain cs).map fun (units, rest) => (⟨joinUnits units⟩, rest)

def splitDigits (cs : List Char) : List Char × List Char := cs.span Char.isDigit

def natOfDigits (digits : List Char) : Nat :=
  digits.foldl (fun n c => 10 * n + (c.toNat - 48)) 0

/-- Digits after a point; without digits the point does not belong to the number. -/
def readFraction : List Char → Option (List Char) × List Char
  | '.' :: rest =>
    match splitDigits rest with
    | ([], _) => (none, '.' :: rest)
    | (digits, rest) => (some digits, rest)
  | cs => (none, cs)

def splitExponentSign : List Char → Bool × List Char
  | '-' :: rest => (true, rest)
  | '+' :: rest => (false, rest)
  | cs => (false, cs)

/-- A power of ten; without digits the letter does not belong to the number. -/
def readExponent : List Char → Option Int × List Char
  | c :: rest =>
    if c = 'e' ∨ c = 'E' then
      let (negative, digits) := splitExponentSign rest
      match splitDigits digits with
      | ([], _) => (none, c :: rest)
      | (digits, rest) =>
        let n : Int := natOfDigits digits
        (some (if negative then -n else n), rest)
    else (none, c :: rest)
  | [] => (none, [])

/-- The whole part of a number: a zero alone, or digits that do not start with zero. -/
def readWhole : List Char → Option (List Char × List Char)
  | '0' :: rest => some (['0'], rest)
  | cs =>
    match splitDigits cs with
    | ([], _) => none
    | (digits, rest) => some (digits, rest)

def readNumber (negative : Bool) (cs : List Char) : Except ReadFailure (Json × List Char) :=
  match readWhole cs with
  | none => .error .malformed
  | some (whole, rest) =>
    match readFraction rest with
    | (fraction, rest) =>
      match readExponent rest with
      | (exponent, rest) =>
        if fraction.isNone ∧ exponent.isNone then
          if maxDigits < whole.length then .error (.longInteger whole.length)
          else
            let n : Int := natOfDigits whole
            .ok (.integer (if negative then -n else n), rest)
        else
          let places := fraction.getD []
          let value := Binary64.ofDecimal negative (natOfDigits (whole ++ places))
            (exponent.getD 0 - places.length)
          .ok (.real value, rest)

def dropWord? : List Char → List Char → Option (List Char)
  | [], cs => some cs
  | w :: word, c :: cs => if w = c then dropWord? word cs else none
  | _ :: _, [] => none

def wordValues : List (List Char × Json) :=
  [("null".toList, .null), ("true".toList, .bool true), ("false".toList, .bool false),
    ("NaN".toList, .real .nan), ("Infinity".toList, .real (.infinite false)),
    ("-Infinity".toList, .real (.infinite true))]

def readScalar (cs : List Char) : Except ReadFailure (Json × List Char) :=
  match wordValues.findSome? fun (word, value) => (dropWord? word cs).map (value, ·) with
  | some result => .ok result
  | none =>
    match cs with
    | '-' :: rest => readNumber true rest
    | cs => readNumber false cs

mutual

/-- A value at the front of a text, in which so many arrays and objects may be nested. The first
argument bounds the number of steps. -/
def readValue : Nat → Nat → List Char → Except ReadFailure (Json × List Char)
  | 0, _, _ => .error .malformed
  | steps + 1, depth, c :: rest =>
    if c = '\x22' then
      match readText rest with
      | some (content, rest) => .ok (.text content, rest)
      | none => .error .malformed
    else if c = '[' then
      match depth, skipGap rest with
      | 0, _ => .error .tooDeep
      | _ + 1, ']' :: rest => .ok (.array [], rest)
      | depth + 1, cs =>
        match readItems steps depth cs with
        | .ok (items, rest) => .ok (.array items, rest)
        | .error e => .error e
    else if c = '\x7b' then
      match depth, skipGap rest with
      | 0, _ => .error .tooDeep
      | _ + 1, '\x7d' :: rest => .ok (.object [], rest)
      | depth + 1, cs =>
        match readFields steps depth cs with
        | .ok (fields, rest) => .ok (.object (Association.update [] fields), rest)
        | .error e => .error e
    else readScalar (c :: rest)
  | _ + 1, _, [] => .error .malformed

def readItems : Nat → Nat → List Char → Except ReadFailure (List Json × List Char)
  | 0, _, _ => .error .malformed
  | steps + 1, depth, cs =>
    match readValue steps depth cs with
    | .error e => .error e
    | .ok (item, rest) =>
      match skipGap rest with
      | ']' :: rest => .ok ([item], rest)
      | ',' :: rest =>
        match readItems steps depth (skipGap rest) with
        | .ok (items, rest) => .ok (item :: items, rest)
        | .error e => .error e
      | _ => .error .malformed

def readFields :
    Nat → Nat → List Char → Except ReadFailure (List (WideString × Json) × List Char)
  | 0, _, _ => .error .malformed
  | steps + 1, depth, '\x22' :: cs =>
    match readText cs with
    | none => .error .malformed
    | some (key, rest) =>
      match skipGap rest with
      | ':' :: rest =>
        match readValue steps depth (skipGap rest) with
        | .error e => .error e
        | .ok (value, rest) =>
          match skipGap rest with
          | '\x7d' :: rest => .ok ([(key, value)], rest)
          | ',' :: rest =>
            match readFields steps depth (skipGap rest) with
            | .ok (fields, rest) => .ok ((key, value) :: fields, rest)
            | .error e => .error e
          | _ => .error .malformed
      | _ => .error .malformed
  | _ + 1, _, _ => .error .malformed

end

/-- The value that a text holds. Each character takes two steps at most. -/
def read (text : String) : Except ReadFailure Json :=
  let cs := text.toList
  match readValue (2 * cs.length + 1) maxDepth (skipGap cs) with
  | .error e => .error e
  | .ok (value, rest) => if skipGap rest = [] then .ok value else .error .malformed

end CodeSignature.Json
