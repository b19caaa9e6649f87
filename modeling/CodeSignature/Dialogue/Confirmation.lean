import CodeSignature.Dialogue.Basic
import CodeSignature.Text.Blank

/-! # Confirmation

A question on the terminal. An empty reply means yes, and anything but yes and no means cancel, as
does the end of the input.
-/

namespace CodeSignature.Confirmation

def prompt (question : String) : String := question ++ " [Y/n/c] "

/-- What a reply means; blanks around it and its case do not matter. -/
def answer (reply : List Char) : Answer :=
  let word := String.ofList ((Text.strip reply).map Char.toLower)
  if word = "" ∨ word = "y" ∨ word = "yes" then .yes
  else if word = "n" ∨ word = "no" then .no
  else .cancel

/-- The lines of an input. After a last line break there is no further line. -/
def lines (input : String) : List (List Char) :=
  match (Text.splitAt '\n' input.toList).reverse with
  | [] :: rest => rest.reverse
  | pieces => pieces.reverse

def replies (input : String) : List Reply := (lines input).map fun line => .answer (answer line)

end CodeSignature.Confirmation
