import CodeSignature.Signature.Staged

/-! # Scanning in stages

The search as it works on segments in any order. The places of a pattern text are written as an
expression of bytes, behind a lookahead so that hits may overlap. The expression is tried at every
offset of a segment, segment after segment in ascending order, and a limit is tested after each hit.
-/

namespace CodeSignature.Scan

def ascii (text : String) : List UInt8 := text.toList.map Char.toUInt8

def dot : UInt8 := '.'.toUInt8

def backslash : UInt8 := '\\'.toUInt8

/-- The bytes with a backslash in front of them where they are meant literally. -/
def escaped : List UInt8 := ascii "()[]\x7b\x7d?*+-|^$\\.&~# \t\n\r\x0b\x0c"

/-- The bytes that are no literals in an expression unless a backslash is in front of them. -/
def operators : List UInt8 := ascii ".^$*+?\x7b\x7d[]\\|()"

/-- The bytes to which a backslash in front gives a meaning of its own: digits and letters. -/
def isWordByte (b : UInt8) : Bool :=
  let c := Char.ofNat b.toNat
  c.isAlphanum

def literal (b : UInt8) : List UInt8 := if escaped.contains b then [backslash, b] else [b]

def item : Option UInt8 → List UInt8
  | some b => literal b
  | none => [dot]

def opening : List UInt8 := ascii "(?="

def closing : List UInt8 := ascii ")"

/-- The expression of a pattern, which looks ahead and takes no bytes. -/
def expression (p : Pattern) : List UInt8 := opening ++ p.flatMap item ++ closing

/-- A line feed and a dot stand for themselves behind a backslash. -/
example : expression [some 0x0A, none, some 0x2E] = ascii "(?=\\\n.\\.)" := by decide

/-- The places that an expression of literals and dots stands for. A dot stands for any byte, a line
feed as well. -/
def places? : List UInt8 → Option Pattern
  | [] => some []
  | a :: rest =>
    if a = dot then (places? rest).map (none :: ·)
    else if a = backslash then
      match rest with
      | b :: rest => if isWordByte b then none else (places? rest).map (some b :: ·)
      | [] => none
    else if operators.contains a then none
    else (places? rest).map (some a :: ·)

def read? (bytes : List UInt8) : Option Pattern :=
  if bytes.take opening.length = opening ∧ bytes.getLast? = closing.head? then
    places? (bytes.drop opening.length).dropLast
  else none

/-- The offsets at which the places meet their bytes. Nothing is taken at a hit, so every offset is
tried, and the end of the bytes too. -/
def offsets (p : Pattern) (data : List UInt8) : List Nat :=
  (List.range (data.length + 1)).filter fun i => p.matchesFront (data.drop i)

def hits (p : Pattern) (s : Segment) : List Int :=
  (offsets p s.data).map fun (i : Nat) => s.start + i

def isEnough (limit : Option Int) (found : List Int) : Bool :=
  match limit with
  | some limit => limit ≤ found.length
  | none => false

/-- Adds addresses one by one, and is done as soon as there are enough. -/
def collect (limit : Option Int) (found : List Int) : List Int → ForInStep (List Int)
  | [] => .yield found
  | x :: rest =>
    if isEnough limit (found ++ [x]) then .done (found ++ [x])
    else collect limit (found ++ [x]) rest

def collectEach (p : Pattern) (limit : Option Int) (found : List Int) : List Segment → List Int
  | [] => found
  | s :: rest =>
    match collect limit found (hits p s) with
    | .done found => found
    | .yield found => collectEach p limit found rest

example : collectEach [some 0xAA, some 0xAA] (some 2) [] [⟨"a", 0, [0xAA, 0xAA, 0xAA], false⟩,
    ⟨"b", 4, [0xAA, 0xAA], false⟩] = [0, 1] := by decide

inductive Cause where
  | refusal (refusal : Refusal)
  | expression (bytes : List UInt8)
deriving DecidableEq, Repr

def find (segments : List Segment) (text : String) (limit : Option Int) :
    Except Cause (List Int) :=
  match Staged.pattern text.toList with
  | .error refusal => .error (.refusal refusal)
  | .ok places =>
    match read? (expression places) with
    | some p => .ok (collectEach p limit [] (Image.arrange segments))
    | none => .error (.expression (expression places))

def isUnique (image : Image) (text : String) : Except Cause Bool := do
  return (← find image.segments text (some 2)).length = 1

end CodeSignature.Scan
