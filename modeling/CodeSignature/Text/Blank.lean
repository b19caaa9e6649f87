import CodeSignature.Sequence

/-! # Blank characters

The characters that separate words: those with the White_Space property and the four information
separators. Texts are stripped of them at the ends and split at them.
-/

namespace CodeSignature

/-- White space and the information separators U+001C to U+001F. -/
def isBlank (c : Char) : Bool :=
  let n := c.toNat
  (9 ≤ n && n ≤ 13) || (28 ≤ n && n ≤ 32) || n = 0x85 || n = 0xA0 || n = 0x1680 ||
    (0x2000 ≤ n && n ≤ 0x200A) || n = 0x2028 || n = 0x2029 || n = 0x202F || n = 0x205F ||
    n = 0x3000

namespace Text

def stripFront (cs : List Char) : List Char := cs.dropWhile isBlank

def strip (cs : List Char) : List Char :=
  Sequence.dropEndWhile isBlank (stripFront cs)

/-- The first word of a text, which is empty if the text starts with a blank, and the words of the
rest. -/
def splitWord : List Char → List Char × List (List Char)
  | [] => ([], [])
  | c :: rest =>
    let (word, more) := splitWord rest
    if isBlank c then ([], if word = [] then more else word :: more) else (c :: word, more)

def words (cs : List Char) : List (List Char) :=
  let (word, more) := splitWord cs
  if word = [] then more else word :: more

/-- The pieces between the occurrences of a separator; there is always at least one. -/
def splitAt (separator : Char) : List Char → List (List Char)
  | [] => [[]]
  | c :: rest =>
    match splitAt separator rest with
    | piece :: more => if c = separator then [] :: piece :: more else (c :: piece) :: more
    | [] => [[c]]

end Text

example : Text.words " 48  8B\t? ".toList = ["48".toList, "8B".toList, "?".toList] := by decide

example : Text.strip "\n a b \x1c".toList = "a b".toList := by decide

end CodeSignature
