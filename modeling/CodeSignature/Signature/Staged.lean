import CodeSignature.Image.Occurrences
import CodeSignature.Text.Numeral

/-! # Reading signatures in stages

The reader as it works on a pasted text. Patterns accept the text or pick pieces out of it, and only
then are the pieces converted as numerals of base sixteen. For a search, what has been read is written
as a pattern text, which is split and converted once more. A conversion does not know what was
accepted, so it can refuse a piece that is no numeral or a number that is no byte.
-/

namespace CodeSignature

inductive Refusal where
  | failure (cause : Failure)
  /-- A piece is no numeral. -/
  | numeral (piece : List Char)
  /-- A number is no byte. -/
  | range (value : Int)
deriving DecidableEq, Repr

namespace Staged

/-- A cell whose value may be any number. -/
structure Entry where
  value : Int
  wildcard : Bool
deriving DecidableEq, Repr

def isHexDigit (c : Char) : Bool :=
  ('0' ≤ c && c ≤ '9') || ('a' ≤ c && c ≤ 'f') || ('A' ≤ c && c ≤ 'F')

def isPair : List Char → Bool
  | [high, low] => isHexDigit high && isHexDigit low
  | _ => false

def number (piece : List Char) : Except Refusal Int :=
  match Numeral.read? 16 (String.ofList piece) with
  | some n => .ok n
  | none => .error (.numeral piece)

/-- Without the pattern in front of it, a conversion takes more than pairs of digits. -/
example : number ['0', 'x', '_', 'f'] = .ok 15 ∧ number ['-', '1'] = .ok (-1) :=
  ⟨rfl, rfl⟩

def byte (value : Int) : Except Refusal UInt8 :=
  if 0 ≤ value ∧ value < 256 then .ok (UInt8.ofNat value.toNat) else .error (.range value)

def pieces (lead : Char) : List Char → List (List Char)
  | a :: x :: high :: low :: rest =>
    if a = lead ∧ x = 'x' ∧ isHexDigit high ∧ isHexDigit low then [high, low] :: pieces lead rest
    else pieces lead (x :: high :: low :: rest)
  | _ => []

def literal (piece : List Char) : Except Refusal Entry := do
  return ⟨← number piece, false⟩

def underMask (piece : List Char) (mark : Char) : Except Refusal Entry := do
  return ⟨← number piece, mark = '?'⟩

def readMasked (cs mask : List Char) : Except Refusal (List Entry) :=
  match Signature.leads.find? fun lead =>
      pieces lead cs ≠ [] ∧ (pieces lead cs).length = mask.length with
  | some lead => ((pieces lead cs).zip mask).mapM fun (piece, mark) => underMask piece mark
  | none => .error (.failure (.maskMismatch (String.ofList mask)))

/-- What has to come next in a text of words with blanks after each. -/
inductive Expected where
  | word
  | digit
  | blank
  | blankOrWord
deriving DecidableEq, Repr

def Expected.afterFirst? (c : Char) : Option Expected :=
  if c = '?' then some .blank else if isHexDigit c then some .digit else none

def Expected.after? (c : Char) : Expected → Option Expected
  | .word => afterFirst? c
  | .digit => if isHexDigit c then some .blank else none
  | .blank => if isBlank c then some .blankOrWord else none
  | .blankOrWord => if isBlank c then some .blankOrWord else afterFirst? c

/-- Whether a text goes on as expected. It may end after a blank. -/
def accepts : Expected → List Char → Bool
  | expected, [] => expected = .blankOrWord
  | expected, c :: cs =>
    match expected.after? c with
    | some next => accepts next cs
    | none => false

def ofWord (word : List Char) : Except Refusal Entry :=
  if word = ['?'] then .ok ⟨0, true⟩ else literal word

def readPlain (cs : List Char) : Except Refusal (List Entry) :=
  let text := Signature.normalize cs
  if accepts .word text then (Text.words text).mapM ofWord
  else
    match Signature.leads.find? fun lead => 1 < (pieces lead text).length with
    | some lead => (pieces lead text).mapM literal
    | none => .error (.failure .unrecognizedText)

def read (text : String) : Except Refusal (List Entry) :=
  match Signature.findMask text.toList with
  | some mask => readMasked text.toList mask
  | none => readPlain text.toList

/-- Upper-case digits, two of them at least. -/
def digits (value : Int) : List Char := (Hex.padded 2 value).toList.map Char.toUpper

def word (e : Entry) : List Char := if e.wildcard then ['?'] else digits e.value

def render (entries : List Entry) : List Char := [' '].intercalate (entries.map word)

def place (token : List Char) : Except Refusal (Option UInt8) :=
  if token = ['?'] ∨ token = ['?', '?'] then .ok none
  else if isPair token then do
    let value ← number token
    return some (← byte value)
  else .error (.failure (.invalidToken (String.ofList token)))

def pattern (cs : List Char) : Except Refusal Pattern :=
  match Text.words cs with
  | [] => .error (.failure .emptyPattern)
  | tokens => tokens.mapM place

def search (image : Image) (text : String) : Except Refusal (List Entry × List Int) := do
  let entries ← read text
  let pattern ← pattern (render entries)
  return (entries, image.occurrences pattern)

end Staged

end CodeSignature
