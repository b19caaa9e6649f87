import CodeSignature.Failure
import CodeSignature.Text.Blank
import CodeSignature.Text.Hex

/-! # Reading signatures

Text in any dialect. If it holds a mask, its bytes are escapes or numbers, as many as the mask has
places. Otherwise it consists of words, or of escapes or numbers that are all literal. A pattern
text, which only consists of words, is stricter about everything but the last of them.
-/

namespace CodeSignature

namespace Pattern

def ofToken (token : List Char) : Except Failure (Option UInt8) :=
  if token = ['?'] ∨ token = ['?', '?'] then .ok none
  else
    match token with
    | [high, low] =>
      match Hex.byte? high low with
      | some b => .ok (some b)
      | none => .error (.invalidToken (String.ofList token))
    | _ => .error (.invalidToken (String.ofList token))

/-- The pattern of a text. It has a word at least, and the first foreign word is reported. -/
def read (text : String) : Except Failure Pattern :=
  match Text.words text.toList with
  | [] => .error .emptyPattern
  | tokens => tokens.mapM ofToken

end Pattern

namespace Signature

def isMaskChar (c : Char) : Bool := c = 'x' || c = '?'

def isBit (c : Char) : Bool := c = '0' || c = '1'

/-- The leftmost `x` that more mask characters follow, with all of them. -/
def findMaskRun : List Char → Option (List Char)
  | [] => none
  | c :: rest =>
    if c = 'x' then
      match rest.takeWhile isMaskChar with
      | [] => findMaskRun rest
      | run => some (c :: run)
    else findMaskRun rest

/-- The bits after the leftmost `0b` that bits follow. -/
def findBits : List Char → Option (List Char)
  | c :: b :: rest =>
    if c = '0' ∧ b = 'b' then
      match rest.takeWhile isBit with
      | [] => findBits (b :: rest)
      | run => some run
    else findBits (b :: rest)
  | _ => none

/-- The mask in a text, as mask characters. The lowest bit of a bit mask is the first place. -/
def findMask (cs : List Char) : Option (List Char) :=
  match findMaskRun cs with
  | some run => some run
  | none => (findBits cs).map fun bits => (bits.map fun b => if b = '1' then 'x' else '?').reverse

/-- The bytes in a text that are written with a lead character, an `x` and two digits. -/
def findBytes (lead : Char) : List Char → List UInt8
  | a :: x :: high :: low :: rest =>
    if a = lead ∧ x = 'x' then
      match Hex.byte? high low with
      | some b => b :: findBytes lead rest
      | none => findBytes lead (x :: high :: low :: rest)
    else findBytes lead (x :: high :: low :: rest)
  | _ => []

/-- The lead characters of escapes and of numbers, in the order in which they are tried. -/
def leads : List Char := ['\\', '0']

def underMask (bytes : List UInt8) (mask : List Char) : Signature :=
  List.zipWith (fun b c => ⟨b, c = '?'⟩) bytes mask

def readMasked (cs mask : List Char) : Except Failure Signature :=
  match leads.find? fun lead => (findBytes lead cs).length = mask.length with
  | some lead => .ok (underMask (findBytes lead cs) mask)
  | none => .error (.maskMismatch (String.ofList mask))

def isBracket (c : Char) : Bool := c = '(' || c = ')' || c = '[' || c = ']'

/-- Blanks and question marks, which do not count at the end of a text. -/
def isTail (c : Char) : Bool := c = '?' || isBlank c

/-- Writes a double question mark in front of a space as a single one. -/
def singleMarks : List Char → List Char
  | a :: b :: c :: rest =>
    if a = '?' ∧ b = '?' ∧ c = ' ' then '?' :: ' ' :: singleMarks rest
    else a :: singleMarks (b :: c :: rest)
  | cs => cs

/-- The text without brackets and without a tail, with a space at the end. -/
def normalize (cs : List Char) : List Char :=
  let bare := Text.stripFront (cs.filter fun c => !isBracket c)
  singleMarks (Sequence.dropEndWhile isTail bare ++ [' '])

def ofWord? : List Char → Option Cell
  | ['?'] => some ⟨0, true⟩
  | [high, low] => (Hex.byte? high low).map (⟨·, false⟩)
  | _ => none

def ofWords? (cs : List Char) : Option Signature :=
  match Text.words cs with
  | [] => none
  | ws => ws.mapM ofWord?

/-- Reads literal bytes; there are two at least. -/
def ofLiterals? (cs : List Char) : Option Signature :=
  (leads.find? fun lead => 1 < (findBytes lead cs).length).map fun lead =>
    ofBytes false (findBytes lead cs)

def readPlain (cs : List Char) : Except Failure Signature :=
  match ofWords? (normalize cs) with
  | some s => .ok s
  | none =>
    match ofLiterals? (normalize cs) with
    | some s => .ok s
    | none => .error .unrecognizedText

def readChars (cs : List Char) : Except Failure Signature :=
  match findMask cs with
  | some mask => readMasked cs mask
  | none => readPlain cs

/-- The signature of a text in any dialect. -/
def read (text : String) : Except Failure Signature := readChars text.toList

end Signature

end CodeSignature
