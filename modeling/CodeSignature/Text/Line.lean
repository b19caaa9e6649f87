import CodeSignature.Text.Blank

/-! # Lines

Text is split into lines at its line feeds. Where carriage returns end lines as well, they are made line
feeds first.
-/

namespace CodeSignature.Text

def lines (text : String) : List String := (splitAt '\n' text.toList).map String.ofList

/-- The text with a line feed for each line feed, carriage return, or pair of the two. -/
def unifyBreaks : List Char → List Char
  | '\r' :: '\n' :: rest => '\n' :: unifyBreaks rest
  | c :: rest => (if c = '\r' then '\n' else c) :: unifyBreaks rest
  | [] => []

example : lines "a\rb\n\nc" = ["a\rb", "", "c"] := by decide

example : unifyBreaks "a\r\nb\rc\n".toList = "a\nb\nc\n".toList := by decide

end CodeSignature.Text
